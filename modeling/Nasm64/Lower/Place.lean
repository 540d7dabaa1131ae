import Nasm64.Lower.Lowering

/-! Addresses of variables, dereferences, elements and members. -/
namespace Nasm64.Lower

def placeVariable (position : Position) (name : String) : Lower (Code × Located) := do
  let slot ← lookup position name
  return ([], { address := .frameSlot slot.offset })

/-- Evaluates a pointer into a base register, a free one unless the caller gives a usable one. -/
def placePointer (pointer : Lowering) (hint : Option Register) : Lower (Code × Located) := do
  match hint.filter Register.valid with
  | some register =>
    let code ← pointer.into (register.resize 8)
    return (code, { address := { base := .reg (register.resize 8) } })
  | none =>
    let register ← acquire pointer.position false 8
    pushRegister register
    let code ← pointer.into (register.resize 8)
    return (code, { address := { base := .reg (register.resize 8) }, held := 1 })

def placeDeref (position : Position) (pointer : Lowering) (hint : Option Register) :
    Lower (Code × Located) := do
  if !pointer.type.isPointer then fail position (.cannotDereference pointer.type.text)
  else placePointer pointer hint

def widenIndex (register : Register) (ty : Ty) : Code :=
  let size := ty.registerSize
  if size == 8 then []
  else if size == 4 && ty.isSigned then [.binary .movsxd (.reg register) (.reg (register.resize 4))]
  else if size == 4 then [.mov (.reg (register.resize 4)) (.reg (register.resize 4))]
  else if ty.isSigned then [.binary .movsx (.reg register) (.reg (register.resize size))]
  else [.binary .movzx (.reg register) (.reg (register.resize size))]

def indexCode (register : Register) (ty : Ty) (elementSize : Int64) : Code :=
  widenIndex register ty ++
    if elementSize == 1 then [] else [.binary .imul (.reg register) (.imm elementSize)]

/-- Adds an index that is not constant, scaled by the size of an element. -/
def addIndex (located : Located) (subscript : Lowering) (elementSize : Int64) :
    Lower (Code × Located) := do
  let register ← acquire subscript.position false 8
  pushRegister register
  let evaluation ← subscript.into (register.resize subscript.type.registerSize)
  let code := evaluation ++ indexCode register subscript.type elementSize
  match located.address.index with
  | none =>
    return (code, { address := { located.address with index := some register },
                    held := located.held + 1 })
  | some index =>
    popRegister
    return (code ++ [.binary .add (.reg index) (.reg register)], located)

def placeBase (base : Lowering) (hint : Option Register) : Lower (Code × Located) :=
  if base.type.isPointer then placePointer base hint else base.place hint

/-- The element of an array or behind a pointer. A constant index only moves the address. -/
def placeElement (position : Position) (base subscript : Lowering) (constant : Option Int64)
    (hint : Option Register) : Lower (Code × Located) := do
  if !base.type.isPointer && !base.type.isArray then fail position (.cannotIndex base.type.text)
  else
    let (code, located) ← placeBase base hint
    if !subscript.type.isInteger then
      fail subscript.position (.indexType subscript.type.text)
    else
      let elementSize := base.type.target.size
      match constant with
      | some index =>
        return (code, { located with address := located.address.advance (elementSize * index) })
      | none =>
        let (indexing, located) ← addIndex located subscript elementSize
        return (code ++ indexing, located)

def placeMember (position : Position) (base : Lowering) (field : String)
    (hint : Option Register) : Lower (Code × Located) := do
  let (code, located) ← placeBase base hint
  let record := Expr.record base.type
  match record.field? field with
  | some field =>
    return (code, { located with address := located.address.advance field.offset })
  | none => fail position (.noField record.text field)

end Nasm64.Lower
