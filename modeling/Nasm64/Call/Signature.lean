import Nasm64.Register.Lane
import Nasm64.Ty.Layout

/-! Signatures, their labels, and where their arguments travel. -/
namespace Nasm64

structure Signature where
  name : String
  parameters : List Ty
  result : Ty
  isExternal : Bool := false
  isVariadic : Bool := false
deriving Repr, Inhabited

namespace Signature

def mangleType (ty : Ty) : String :=
  String.join (ty.text.toList.map fun c => if c == '*' then "ptr" else c.toString)

/-- The label of a method spells out its parameters and its result. The entry method and methods
defined elsewhere keep their plain name. -/
def label (signature : Signature) : String :=
  if signature.isExternal || signature.name == "main" then signature.name
  else
    let parameters :=
      if signature.parameters.isEmpty then "void"
      else "_".intercalate (signature.parameters.map fun ty => mangleType ty.decay)
    "." ++ signature.name ++ "_" ++ parameters ++ "~" ++ mangleType signature.result

def text (signature : Signature) : String :=
  let parameters := signature.parameters.map Ty.text ++ (if signature.isVariadic then ["..."] else [])
  signature.name ++ "(" ++ ", ".intercalate parameters ++ ") " ++ signature.result.text

/-- The types that arguments travel as. Arrays decay, and a float among the further arguments of a
variadic method becomes a double. -/
def argumentTypes (signature : Signature) (arguments : List Ty) : List Ty :=
  arguments.zipIdx.map fun (ty, position) =>
    let ty := ty.decay
    if signature.isVariadic && signature.parameters.length ≤ position && ty.isFloat then .prim .f64
    else ty

/-- Whether a call with arguments of these types means this signature. -/
def accepts (signature : Signature) (arguments : List Ty) : Bool :=
  let enough :=
    if signature.isVariadic then signature.parameters.length ≤ arguments.length
    else signature.parameters.length == arguments.length
  enough && (signature.parameters.zip arguments).all fun (parameter, argument) =>
    parameter.decay.same argument.decay

end Signature

namespace Call

def slotSize : Int64 := 8

def shadowSpace : Int64 := 32

/-- Where an argument is at the call. A float for a method defined elsewhere is also passed in the
general register of its lane. -/
inductive Place where
  | register (register : Register) (pair : Option Register)
  | stack
deriving DecidableEq, Repr

structure Slot where
  index : Nat
  place : Place
deriving DecidableEq, Repr

def Slot.offset (slot : Slot) : Int64 := Int64.ofNat slot.index * slotSize

structure SlotError where
  index : Nat
  type : String
  error : Register.Error
deriving DecidableEq, Repr

def SlotError.message (error : SlotError) : String :=
  "argument " ++ toString error.index ++ " of type " ++ error.type ++ ": " ++ error.error.message

def lanePlace (lane : Lane) (isExternal : Bool) (ty : Ty) : Except Register.Error Place := do
  let general ← Register.view lane.general ty.size.toInt
  if ty.isFloat then
    let float ← general.toFloat
    return .register float (if isExternal then some ⟨lane.general, 8⟩ else none)
  else return .register general none

/-- Argument `i` takes lane `i`, and those past the last lane go to the stack. -/
def resolve (arguments : List Ty) (isExternal : Bool) : Except SlotError (List Slot) :=
  arguments.zipIdx.mapM fun (ty, index) =>
    let ty := ty.decay
    match Lane.all[index]? with
    | none => .ok ⟨index, .stack⟩
    | some lane =>
      match lanePlace lane isExternal ty with
      | .ok place => .ok ⟨index, place⟩
      | .error error => .error ⟨index, ty.text, error⟩

def resultRegister? (ty : Ty) : Option Register :=
  if ty.isVoid then none
  else if ty.isFloat then some ⟨.float 0, ty.size.toInt⟩
  else if ty.isScalar || ty.isArray then some ⟨.rax, ty.decay.size.toInt⟩
  else none

/-- The bytes that a caller reserves: a slot for each argument, and no less than the home area. -/
def argumentArea (count : Nat) (shadow : Int64) : Int64 :=
  max (Int64.ofNat count * slotSize) shadow

end Call
end Nasm64
