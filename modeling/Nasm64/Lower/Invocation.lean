import Nasm64.Lower.Lowering

/-! Calls. -/
namespace Nasm64.Lower

def argumentSlot (index : Nat) : Address := .aboveStack (Int64.ofNat index * Call.slotSize)

/-- The argument area, grown so that the stack is aligned at the call. -/
def alignedArea (depth area alignment : Int64) : Int64 :=
  let excess := (depth + area) % alignment
  if excess == 0 then area else area + (alignment - excess)

/-- Stores an argument in its slot. A float that travels as a double is widened. -/
def stageCode (index : Nat) (source ty : Ty) : Code :=
  let register := accumulatorFor source
  if ty.isFloat && ty.registerSize != register.size then
    .binary .cvtss2sd (.reg register) (.reg register) ::
      store (.mem ty.registerSize (argumentSlot index)) (register.resize ty.registerSize)
  else store (.mem register.size (argumentSlot index)) register

def stageArgument (index : Nat) (argument : Lowering) (ty : Ty) : Lower Code := do
  return (← argument.into (accumulatorFor argument.type)) ++ stageCode index argument.type ty

def stageArguments (index : Nat) : List (Lowering × Ty) → Lower Code
  | [] => return []
  | (argument, ty) :: rest => do
    let code ← stageArgument index argument ty
    return code ++ (← stageArguments (index + 1) rest)

/-- Loads the register of a slot, and the general register of its lane where it has to be. -/
def loadLane (slot : Call.Slot) : Code :=
  match slot.place with
  | .stack => []
  | .register register pair =>
    let address := argumentSlot slot.index
    let copy : Code := match pair with
      | some general => [.mov (.reg general) (.mem 8 address)]
      | none => []
    move register (.mem register.size address) ++ copy

def resultCode (result : Ty) : Option Register → Code
  | some register => moveRegister register ((Call.resultRegister? result).getD ⟨.rax, 0⟩)
  | none => []

def areaCode (signature : Signature) (slots : List Call.Slot) (target : Option Register)
    (staging : Code) : Code :=
  staging ++ slots.flatMap loadLane ++ [.call signature.label] ++
    resultCode signature.result target

def reservedCode (bytes : Int64) (code : Code) : Code :=
  [.binary .sub (.reg .stackPointer) (.imm bytes)] ++ code ++
    [.binary .add (.reg .stackPointer) (.imm bytes)]

/-- The fragment of a call: its value is in the target, if there is one. -/
def callFragment (code : Code) : Option Register → Lowered
  | some register => .value code register
  | none => .effect code

/-- Saves the registers that the call overwrites, evaluates the arguments into their slots, loads the
lanes and calls. -/
def emitCall (signature : Signature) (arguments : List (Lowering × Ty)) (slots : List Call.Slot)
    (target : Option Register) : Lower Lowered := do
  let env ← read
  let saved := (← get).liveVolatile (target.elim [] fun register => [register.family])
  let saving ← saved.mapM savePush
  if env.stackAlignment == 0 then throw (.fault .zeroAlignment)
  else
    let area := alignedArea (← get).depth (Call.argumentArea arguments.length env.shadowSpace)
      env.stackAlignment
    modify fun frame => { frame with depth := frame.depth + area }
    let staging ← stageArguments 0 arguments
    modify fun frame => { frame with depth := frame.depth - area }
    let restoring ← saved.reverse.mapM restorePop
    return callFragment (saving.flatten ++ reservedCode area (areaCode signature slots target staging) ++
      restoring.flatten) target

def resultTarget (position : Position) (result : Ty) : Lower (Option Register) :=
  if result.isVoid then pure none else some <$> destination position result

def lowerCall (position : Position) (name : String) (arguments : List Lowering) :
    Lower Lowered := do
  let types := arguments.map Lowering.type
  let signature ← liftCause position .lookup ((← read).table.lookup name types)
  match arguments.find? fun argument => argument.type.isStruct with
  | some argument => fail argument.position .structArgument
  | none =>
    if signature.result.isStruct then fail position (.structResult signature.name)
    else
      let types := signature.argumentTypes types
      let slots ← liftCause position .slot (Call.resolve types signature.isExternal)
      let target ← resultTarget position signature.result
      emitCall signature (arguments.zip types) slots target

end Nasm64.Lower
