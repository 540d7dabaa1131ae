import Nasm64.Lower.Expr

/-! Declarations and assignments. -/
namespace Nasm64.Lower

/-- Writes an integer constant straight into memory when it fits the instruction. -/
def storeConstant? (value : Expr) (ty : Ty) (address : Address) : Option Code :=
  if ty.isFloat || !ty.isScalar then none
  else match value.constant? with
    | some (.word word) =>
      let operand : Operand := .imm (Word.fold word ty.registerSize ty.isSigned)
      if operand.encodable ty.registerSize then
        some [.mov (.mem ty.registerSize address) operand]
      else none
    | _ => none

def storeValue (value : Expr) (ty : Ty) (address : Address) : Lower Code := do
  let register := accumulatorFor ty
  let code ← value.lowering.into register
  return code ++ store (.mem register.size address) register

def storeField (ty : Ty) (base : Address) (name : String) (value : Expr) : Lower Code := do
  match ty.field? name with
  | none => fail value.position (.noField ty.text name)
  | some field =>
    if !field.type.isScalar then
      fail value.position (.fieldNeedsConstant name field.type.text)
    else
      let address := base.advance field.offset
      match storeConstant? value field.type address with
      | some code => return code
      | none => storeValue value field.type address

/-- A struct starts as a copy of another or of a constant in the data section. Otherwise it is
cleared and its fields are stored one by one. -/
def declareStruct (position : Position) (name : String) (ty : Ty) (init : Expr) : Lower Code := do
  match init with
  | .struct _ _ fields =>
    match ← addStruct? ty fields with
    | some label =>
      let slot ← allocate name ty
      return copyBytes (.frameSlot slot.offset) (.atLabel label) ty.size
    | none =>
      let slot ← allocate name ty
      let base := Address.frameSlot slot.offset
      let code ← fields.mapM fun (field, value) => storeField ty base field value
      return zeroBytes base ty.size ++ code.flatten
  | _ =>
    if !init.type.same ty then fail position (.cannotInitialize ty.text init.type.text)
    else
      let (code, source) ← init.lowering.place none
      let slot ← allocate name ty
      release source
      return code ++ copyBytes (.frameSlot slot.offset) source.address ty.size

/-- The initializer of a scalar sees the scope before the declaration. -/
def declareScalar (name : String) (ty : Ty) (init : Expr) : Lower Code := do
  match init.constant? with
  | none =>
    let register := accumulatorFor ty
    let code ← init.lowering.into register
    let slot ← allocate name ty
    return code ++ store (.mem register.size (.frameSlot slot.offset)) register
  | some _ =>
    let slot ← allocate name ty
    match storeConstant? init ty (.frameSlot slot.offset) with
    | some code => return code
    | none => storeValue init ty (.frameSlot slot.offset)

def declare (position : Position) (name : String) (ty : Ty) (init : Option Expr) :
    Lower Code := do
  if ty.isVoid then fail position (.voidVariable name)
  else match init with
    | none =>
      let _ ← allocate name ty
      return []
    | some init =>
      if ty.isStruct then declareStruct position name ty init
      else if ty.isArray then fail position (.arrayInitializer name)
      else declareScalar name ty init

def lowerDeclaration (position : Position) (name : String) (ty : Ty) (init : Option Expr) :
    Lower Code := do
  let code ← declare position name ty init
  modify fun frame =>
    let offset := ((frame.find? name).map Variable.offset).getD 0
    { frame with locals := frame.locals ++ [⟨name, offset, position⟩] }
  return code

def structSource (position : Position) (ty : Ty) (value : Expr) : Lower (Code × Located) :=
  match value with
  | .struct literal _ fields => do
    match ← addStruct? ty fields with
    | some label => pure ([], { address := .atLabel label })
    | none => fail literal .assignedLiteral
  | _ =>
    if !value.type.same ty then fail position (.cannotAssignType value.type.text ty.text)
    else value.lowering.place none

def assignStruct (position : Position) (target value : Expr) : Lower Code := do
  let ty := target.type
  let (sourceCode, source) ← structSource position ty value
  let (targetCode, place) ← target.lowering.place none
  release place
  release source
  return sourceCode ++ targetCode ++ copyBytes place.address source.address ty.size

/-- Evaluates the value first, and then the place while the value is held. -/
def assignScalar (target value : Expr) : Lower Code := do
  let register := accumulatorFor target.type
  let valueCode ← value.lowering.into register
  pushRegister register
  let (placeCode, place) ← target.lowering.place none
  release place
  popRegister
  return valueCode ++ placeCode ++ store (.mem register.size place.address) register

def lowerAssignment (position : Position) (target value : Expr) : Lower Code := do
  if !target.isPlace then fail position (.cannotAssign target.describe)
  else if target.type.isStruct then assignStruct position target value
  else if target.type.isArray then fail position (.cannotAssignArray target.describe)
  else match target with
    | .ident place name ty =>
      let slot ← lookup place name
      match storeConstant? value ty (.frameSlot slot.offset) with
      | some code => return code
      | none => assignScalar target value
    | _ => assignScalar target value

end Nasm64.Lower
