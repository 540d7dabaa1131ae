import Nasm64.Call.Table
import Nasm64.Code.Fragment
import Nasm64.Conversion.Table
import Nasm64.Operation
import Nasm64.Text.Quoted
import Nasm64.Tree.Basic

/-! Why a program cannot be lowered. -/
namespace Nasm64.Lower

inductive ErrorKind where
  /-- An invariant of the generator itself does not hold. -/
  | internal
  /-- A name has no meaning. -/
  | unresolved
  /-- The types of a tree do not fit together. -/
  | type
deriving DecidableEq, Repr

def ErrorKind.name : ErrorKind → String
  | internal => "internal error"
  | unresolved => "unresolved reference"
  | type => "type error"

inductive Cause where
  | register (error : Register.Error)
  | variance (error : Variance)
  | conversion (error : Conversion.Unsupported)
  | operation (error : Operation.Unsupported)
  | slot (error : Call.SlotError)
  | declare (error : SymbolTable.DeclareError)
  | lookup (error : SymbolTable.LookupError)
deriving Repr

def Cause.message : Cause → String
  | .register error => error.message
  | .variance error => error.message
  | .conversion error => error.message
  | .operation error => error.message
  | .slot error => error.message
  | .declare error => error.message
  | .lookup error => error.message

def Cause.kind : Cause → ErrorKind
  | .register _ | .variance _ => .internal
  | .conversion _ | .operation _ | .slot _ => .type
  | .declare _ | .lookup _ => .unresolved

/-- Nodes are given by their description and types by their text. -/
inductive Problem where
  | causedBy (cause : Cause)
  | emptyRegisterStack
  | invalidTarget (register : Register)
  | unknownDemand
  | missingExpression
  | misplacedStruct
  | notAnExpression (node : String)
  | notAStatement (node : String)
  | literalType (type : String)
  | undefinedVariable (name : String)
  | notAValue (name type : String)
  | notAddressable (node : String)
  | noAddress (node : String)
  | noCast (source target : String)
  | unknownOperand (operand : String)
  | cannotNegate (type : String)
  | notBoolOperand (type : String)
  | notIntegerOperand (type : String)
  | cannotDereference (type : String)
  | cannotIndex (type : String)
  | indexType (type : String)
  | noField (type field : String)
  | noRegisterFor (type : String)
  | sizesDiffer (left : String) (leftSize : Int) (right : String) (rightSize : Int)
  | floatComparison (register : Register)
  | structArgument
  | structResult (method : String)
  | voidVariable (name : String)
  | arrayInitializer (name : String)
  | cannotInitialize (type source : String)
  | fieldNeedsConstant (field type : String)
  | cannotAssign (node : String)
  | cannotAssignArray (node : String)
  | cannotAssignType (source target : String)
  | assignedLiteral
  | returnsNothing (method : String)
  | mustReturn (method type : String)
  | conditionType (type : String)
  | resultByValue (method type : String)
  | parameterByValue (parameter method type : String)
  | unbalanced (method : String) (pushes pops held : Nat)
  | noMain
deriving Repr

def Problem.message : Problem → String
  | .causedBy cause => cause.message
  | .emptyRegisterStack => "register stack is empty"
  | .invalidTarget register => "prepare register " ++ register.name ++ " is not a valid register"
  | .unknownDemand => "unknown lowering option <nil>"
  | .missingExpression => "missing expression"
  | .misplacedStruct => "struct literals are only allowed as initializers"
  | .notAnExpression node => "cannot lower " ++ node ++ " as an expression"
  | .notAStatement node => "cannot lower " ++ node ++ " as a statement"
  | .literalType type => "integer literal of type " ++ type
  | .undefinedVariable name => "undefined variable '" ++ name ++ "'"
  | .notAValue name type => "'" ++ name ++ "' of type " ++ type ++ " cannot be used as a value"
  | .notAddressable node => node ++ " is not addressable"
  | .noAddress node => "cannot take the address of " ++ node
  | .noCast source target => "cannot cast " ++ source ++ " to " ++ target
  | .unknownOperand operand => "unrecognised operand " ++ Text.quote operand
  | .cannotNegate type => "cannot negate " ++ type
  | .notBoolOperand type => "'!' needs a bool operand, got " ++ type
  | .notIntegerOperand type => "'~' needs an integer operand, got " ++ type
  | .cannotDereference type => "cannot dereference " ++ type
  | .cannotIndex type => "cannot index " ++ type
  | .indexType type => "array index of type " ++ type
  | .noField type field => type ++ " has no field '" ++ field ++ "'"
  | .noRegisterFor type => "value of type " ++ type ++ " cannot be held in a register"
  | .sizesDiffer left leftSize right rightSize =>
    "operand sizes differ: " ++ left ++ " is " ++ toString leftSize ++ " bytes, " ++ right ++ " is " ++
      toString rightSize ++ " bytes"
  | .floatComparison register => "comparison result in float register " ++ register.name
  | .structArgument => "struct arguments must be passed by pointer"
  | .structResult method => "'" ++ method ++ "' returns a struct by value"
  | .voidVariable name => "variable '" ++ name ++ "' of type void"
  | .arrayInitializer name => "array '" ++ name ++ "' cannot be initialized from an expression"
  | .cannotInitialize type source => "cannot initialize " ++ type ++ " from " ++ source
  | .fieldNeedsConstant field type =>
    "field '" ++ field ++ "' of type " ++ type ++ " needs a constant initializer"
  | .cannotAssign node => "cannot assign to " ++ node
  | .cannotAssignArray node => "cannot assign to array " ++ node
  | .cannotAssignType source target => "cannot assign " ++ source ++ " to " ++ target
  | .assignedLiteral => "struct literal in assignment must be constant"
  | .returnsNothing method => "'" ++ method ++ "' returns no value"
  | .mustReturn method type => "'" ++ method ++ "' must return " ++ type
  | .conditionType type => "condition of type " ++ type ++ ", expected bool"
  | .resultByValue method type => "'" ++ method ++ "' cannot return " ++ type ++ " by value"
  | .parameterByValue parameter method type =>
    "parameter '" ++ parameter ++ "' of '" ++ method ++ "' has type " ++ type ++
      " and must be passed by pointer"
  | .unbalanced method pushes pops held =>
    "unbalanced stack in '" ++ method ++ "': " ++ toString pushes ++ " pushes, " ++ toString pops ++
      " pops, " ++ toString held ++ " registers held"
  | .noMain => "program has no main method"

def Problem.kind : Problem → ErrorKind
  | .causedBy cause => cause.kind
  | .emptyRegisterStack | .invalidTarget _ | .unknownDemand | .missingExpression
  | .notAnExpression _ | .notAStatement _ | .unknownOperand _ | .floatComparison _
  | .unbalanced .. => .internal
  | .undefinedVariable _ | .noMain => .unresolved
  | _ => .type

structure Failure where
  position : Position := {}
  problem : Problem
deriving Repr

namespace Failure

def kind (failure : Failure) : ErrorKind := failure.problem.kind

def summary (failure : Failure) : String := failure.kind.name ++ ": " ++ failure.problem.message

def message (failure : Failure) : String := failure.position.mark failure.summary

end Failure

/-- Conditions under which generation comes to no answer at all. -/
inductive Fault where
  /-- Code was put in front of an operand that has none. -/
  | prependToInline
  /-- The stack is to be aligned to a multiple of zero. -/
  | zeroAlignment
  /-- The frame is larger than the largest power of two. -/
  | endlessFrame
deriving DecidableEq, Repr

def Fault.message : Fault → String
  | .prependToInline => "asm: cannot prepend instructions to an inline result"
  | .zeroAlignment => "the stack alignment is zero"
  | .endlessFrame => "no power of two is as large as the frame"

inductive Halt where
  | failure (failure : Failure)
  | fault (fault : Fault)
deriving Repr

end Nasm64.Lower
