import Nasm64.Lower.Stmt

/-! Method bodies with their entry and exit code. -/
namespace Nasm64

namespace Lower

structure SavedSlot where
  register : Register
  offset : Int64
deriving DecidableEq, Repr

namespace SavedSlot

def save (slot : SavedSlot) : Line :=
  let address := Address.frameSlot slot.offset
  if slot.register.isFloat then .binary .movdqu (.mem 16 address) (.reg slot.register)
  else .mov (.mem 8 address) (.reg slot.register)

def restore (slot : SavedSlot) : Line :=
  let address := Address.frameSlot slot.offset
  if slot.register.isFloat then .binary .movdqu (.reg slot.register) (.mem 16 address)
  else .mov (.reg slot.register) (.mem 8 address)

end SavedSlot

/-- Copies an argument into a slot, from its lane or from the area of the caller. -/
def lowerParameter (method : String) (index : Nat) (parameter : Parameter) : Lower Code := do
  let ty := parameter.type.decay
  if !ty.isScalar then fail {} (.parameterByValue parameter.name method ty.text)
  else
    let size := ty.registerSize
    let slot ← allocate parameter.name ty
    let target : Operand := .mem size (.frameSlot slot.offset)
    match Lane.all[index]? with
    | some lane => return store target ⟨if ty.isFloat then lane.float else lane.general, size⟩
    | none =>
      let scratch := Register.scratch.resize size
      let source : Address :=
        { base := .reg .framePointer, displacement := 16 + Int64.ofNat index * Call.slotSize }
      return [.mov (.reg scratch) (.mem size source), .mov target (.reg scratch)]

def lowerParameters (method : String) (index : Nat) : List Parameter → Lower Code
  | [] => return []
  | parameter :: rest => do
    let code ← lowerParameter method index parameter
    return code ++ (← lowerParameters method (index + 1) rest)

/-- Reserves slots for the registers that the body has to preserve. -/
def reserveSaved : Lower (List SavedSlot) := do
  (← get).savedFamilies.mapM fun family => do
    let offset ← if family.isFloat then reserve 16 16 else reserve 8 8
    return ⟨⟨family, 8⟩, offset⟩

/-- The size of the frame. There is none when it exceeds every power of two. -/
def frameSize? (position shadow alignment : Int64) : Option Int64 :=
  (Word.nextPowerOfTwo? (position + shadow)).map fun size => Word.alignUp size alignment

/-- The code around a body, which comes first because only then the frame is known. -/
def surround (label exit : String) (frame : Int64) (saved : List SavedSlot) (body : Code) : Code :=
  [.label label, .unary .push (.reg .framePointer),
    .mov (.reg .framePointer) (.reg .stackPointer),
    .binary .sub (.reg .stackPointer) (.imm frame)] ++
  saved.map SavedSlot.save ++ body ++ [.label exit] ++
  saved.reverse.map SavedSlot.restore ++ [.plain .leave, .plain .ret]

end Lower

open Lower

namespace Method

def signature (method : Method) : Signature where
  name := method.name
  parameters := method.parameters.map Parameter.type
  result := method.result
  isExternal := method.isExternal
  isVariadic := method.isVariadic

def lowerBody (method : Method) : Lower Code := do
  let parameters ← lowerParameters method.name 0 method.parameters
  let body ← Stmt.lowerBlock true (method.body.getD [])
  let frame ← get
  if frame.pushes != frame.pops || frame.depth != 0 || !frame.held.isEmpty then
    fail method.position (.unbalanced method.name frame.pushes frame.pops frame.held.length)
  else return parameters ++ body

def lower (method : Method) : Lower Code := do
  if method.result.isStruct || method.result.isArray then
    fail method.position (.resultByValue method.name method.result.text)
  else
    let body ← method.lowerBody
    let saved ← reserveSaved
    warnUnused
    let env ← read
    match frameSize? (← get).position env.shadowSpace env.stackAlignment with
    | none => throw (.fault .endlessFrame)
    | some size => return surround env.signature.label env.resultLabel size saved body

end Method
end Nasm64
