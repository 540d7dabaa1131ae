import Nasm64.Lower.Error
import Nasm64.Lower.Frame

/-! Computations that lower parts of a method body. -/
namespace Nasm64

/-- What stays the same throughout a method body. Without settings every warning is recorded and
every feature is off. -/
structure Lower.Env where
  method : Int
  signature : Signature
  table : SymbolTable
  settings : Option Settings

abbrev Lower := ReaderT Lower.Env (StateT Lower.Frame (Except Lower.Halt))

namespace Lower

namespace Env

def shadowSpace (env : Env) : Int64 := env.settings.elim Call.shadowSpace Settings.shadowSpace

def stackAlignment (env : Env) : Int64 := env.settings.elim 16 Settings.stackAlignment

def hasFeature (env : Env) (feature : Feature) : Bool :=
  env.settings.elim false fun settings => settings.hasFeature feature

def hasWarning (env : Env) (warning : WarningKind) : Bool :=
  env.settings.elim true fun settings => settings.hasWarning warning

def resultLabel (env : Env) : String := ".L" ++ toString env.method ++ "_ret"

end Env

variable {α : Type}

def fail (position : Position) (problem : Problem) : Lower α :=
  throw (.failure ⟨position, problem⟩)

def liftCause {ε : Type} (position : Position) (cause : ε → Cause) (result : Except ε α) :
    Lower α :=
  match result with
  | .ok value => pure value
  | .error error => fail position (.causedBy (cause error))

def pushRegister (register : Register) : Lower Unit := modify fun frame => frame.push register

def popRegister : Lower Unit := modify Frame.pop

def lastRegister : Lower Register := do
  match (← get).held.head? with
  | some register => return register
  | none => fail {} .emptyRegisterStack

def takeRegister : Lower Register := do
  let register ← lastRegister
  popRegister
  return register

def touch (family : Family) : Lower Unit := modify fun frame => frame.touch family

/-- Takes a free register, none of those excluded, and notes that it is used. -/
def acquire? (isFloat : Bool) (size : Int) (excluded : List Register := []) :
    Lower (Except Register.Error Register) := do
  let result := (← get).free isFloat size excluded
  if let .ok register := result then touch register.family
  return result

def acquire (position : Position) (isFloat : Bool) (size : Int) : Lower Register := do
  liftCause position .register (← acquire? isFloat size)

/-- The register for a value of some type: the innermost one held if it is of the right class, and
a free one otherwise. -/
def destination (position : Position) (ty : Ty) : Lower Register := do
  match (← get).held.head? with
  | some register =>
    if register.isFloat == ty.isFloat then return register.resize ty.registerSize
    else acquire position ty.isFloat ty.registerSize
  | none => acquire position ty.isFloat ty.registerSize

/-- The register for an operand: that of the result when its class is right, and a free one
otherwise. -/
def workFor (position : Position) (target : Register) (ty : Ty) : Lower Register :=
  if target.isFloat == ty.isFloat then pure (target.resize ty.registerSize)
  else acquire position ty.isFloat ty.registerSize

/-- Runs a computation while a register is held, unless its family is held already. -/
def holding (register : Register) (body : Lower α) : Lower α := do
  if (← get).inUse register.family then body
  else
    pushRegister register
    let result ← body
    popRegister
    return result

def newLabel : Lower String := do
  modify fun frame => { frame with labels := frame.labels + 1 }
  return ".L" ++ toString (← read).method ++ "_" ++ toString (← get).labels

def warn (kind : WarningKind) (position : Position) (message : String) : Lower Unit := do
  if (← read).hasWarning kind then
    modify fun frame => { frame with warnings := frame.warnings ++ [⟨kind, position, message⟩] }

/-- A variable in scope, if there is one. Finding it counts as a use of it. -/
def find? (name : String) : Lower (Option Variable) := do
  match (← get).find? name with
  | some slot =>
    modify fun frame => frame.refer slot
    return some slot
  | none => return none

def lookup (position : Position) (name : String) : Lower Variable := do
  match ← find? name with
  | some slot => return slot
  | none => fail position (.undefinedVariable name)

def allocate (name : String) (ty : Ty) : Lower Variable := do
  let (slot, frame) := (← get).allocate name ty
  set frame
  return slot

def reserve (size align : Int64) : Lower Int64 := do
  let (offset, frame) := (← get).reserve size align
  set frame
  return offset

/-- Runs a computation whose declarations end with it. Their slots are not used again. -/
def inScope (body : Lower α) : Lower α := do
  let scope := (← get).scope
  let result ← body
  modify fun frame => { frame with scope }
  return result

/-- Reports the declared variables whose slot nothing refers to. -/
def warnUnused : Lower Unit := do
  let frame ← get
  frame.locals.forM fun declared =>
    if frame.referenced.contains declared.offset then pure ()
    else
      warn .extra declared.position ("variable '" ++ declared.name ++ "' is declared but never used")

def addString (text : String) : Lower String := do
  let (label, data) := (← get).data.addString text
  modify fun frame => { frame with data }
  return label

def addFloat (value : Double) (size : Int) : Lower String := do
  let (label, data) := (← get).data.addFloat value size
  modify fun frame => { frame with data }
  return label

def addStruct? (ty : Ty) (values : List (String × Expr)) : Lower (Option String) := do
  match (← get).data.addStruct? ty values with
  | some (label, data) =>
    modify fun frame => { frame with data }
    return some label
  | none => return none

def pushCode (register : Register) : Code :=
  if register.isFloat then
    [.binary .sub (.reg .stackPointer) (.imm 8),
      .binary .movsd (.mem 8 (.aboveStack 0)) (.reg register)]
  else [.unary .push (.reg (register.resize 8))]

def popCode (register : Register) : Code :=
  if register.isFloat then
    [.binary .movsd (.reg register) (.mem 8 (.aboveStack 0)),
      .binary .add (.reg .stackPointer) (.imm 8)]
  else [.unary .pop (.reg (register.resize 8))]

/-- Saves a register on the machine stack, a float in a slot of eight bytes. -/
def savePush (register : Register) : Lower Code := do
  modify fun frame => { frame with pushes := frame.pushes + 1, depth := frame.depth + 8 }
  return pushCode register

def restorePop (register : Register) : Lower Code := do
  modify fun frame => { frame with pops := frame.pops + 1, depth := frame.depth - 8 }
  return popCode register

end Lower
end Nasm64
