import Nasm64.Lower.Lowering

/-! Literals, casts and the operators in front of an operand. -/
namespace Nasm64.Lower

def lowerFloat (value : Double) (ty : Ty) : Lower Lowered := do
  let label ← addFloat value ty.registerSize
  return .inline (.mem ty.registerSize (.atLabel label))

def lowerNumber (position : Position) (value : Int64) (ty : Ty) : Lower Lowered := do
  if ty.isFloat then lowerFloat (Double.ofWord value) ty
  else if ty.registerSize == 0 then fail position (.literalType ty.text)
  else return .inline (.imm (Word.fold value ty.registerSize ty.isSigned))

def lowerBool (value : Bool) : Lowered := .inline (.imm (if value then 1 else 0))

def lowerString (position : Position) (text : String) : Lower Lowered := do
  let target ← destination position (.pointer (.prim .u8))
  let label ← addString text
  return .value [.lea target (.atLabel label)] target

/-- A variable is used where it is, and an array by its address. -/
def lowerVariable (position : Position) (name : String) : Lower Lowered := do
  let slot ← lookup position name
  if slot.type.isArray then
    let target ← destination position slot.type
    return .value [.lea target { base := .slot slot.offset }] target
  else if !slot.type.isScalar then fail position (.notAValue name slot.type.text)
  else return .inline (.mem slot.type.registerSize (.frameSlot slot.offset))

/-- The address of a value that is not in memory is that of a slot it is stored in. -/
def lowerAddressOfValue (position : Position) (node : Lowering) (target : Register) :
    Lower Lowered := do
  if !node.type.isScalar then fail position (.noAddress node.description)
  else
    let size := node.type.registerSize
    let offset ← reserve (Int64.ofInt size) node.type.align
    let temporary ←
      if node.type.isFloat then acquire node.position true size else pure (target.resize size)
    let code ← node.into temporary
    let slot := Address.frameSlot offset
    return .value (code ++ store (.mem size slot) temporary ++ [.lea target slot]) target

def lowerAddressOfPlace (node : Lowering) (target : Register) : Lower Lowered := do
  let fragment ← node.address
  let operand ← node.finish [.inline, .value] fragment
  match fragment, operand with
  | .inline place, _ => return .value [.binary .lea (.reg target) place] target
  | _, some source =>
    let copy : Code := if source.text == target.name then [] else [.mov (.reg target) source]
    return .value (fragment.code ++ copy) target
  | _, none => return .value fragment.code target

/-- Taking the address of a dereference gives back the pointer. -/
def lowerAddressOf (position : Position) (node : Lowering) (isDeref isPlace : Bool) :
    Lower Lowered := do
  let target ← destination position (.pointer node.type)
  if isDeref then return settle (← node.nested) target
  else
    holding target do
      if isPlace then lowerAddressOfPlace node target
      else lowerAddressOfValue position node target

def warnCast (position : Position) (source target : Ty) : Lower Unit :=
  let sizes := source.text ++ " to " ++ target.text
  if source.isFloat && target.isFloat then
    if target.registerSize < source.registerSize then
      warn .floatPrecision position ("conversion from " ++ sizes ++ " loses precision")
    else pure ()
  else if source.isFloat then
    warn .narrowing position ("conversion from " ++ sizes ++ " discards the fraction")
  else if target.isFloat then
    if target.registerSize ≤ source.registerSize then
      warn .floatPrecision position ("conversion from " ++ sizes ++ " may lose precision")
    else pure ()
  else if target.registerSize < source.registerSize then
    warn .narrowing position ("cast from " ++ sizes ++ " truncates the value")
  else pure ()

/-- Where the value of a fragment is, as the source of a conversion. -/
def conversionSource (node : Lowering) (fragment : Lowered) : Lower Conversion.Source := do
  match fragment with
  | .inline (.imm value) => return .constant value
  | .inline (.mem _ address) => return .memory node.type.registerSize address
  | .inline operand => fail node.position (.unknownOperand operand.text)
  | .value _ register => return .register register
  | .effect _ =>
    fail node.position
      (.causedBy (.variance ⟨[.inline, .value], .effect, some node.description⟩))

def usesFloatScratch : Conversion.Kind → Bool
  | .floatToFloat | .integerToFloat | .floatToInteger => true
  | _ => false

def finishCast (position : Position) (source target : Ty) (rule : Conversion.Rule)
    (destination : Register) (inner : Lowered) (origin : Conversion.Source) : Lower Lowered := do
  let fragment ← liftCause position .conversion
    (Conversion.convert source target origin destination)
  if usesFloatScratch rule.kind then touch Register.floatScratch.family
  warnCast position source target
  match fragment.prepend? inner.code with
  | some fragment => return fragment
  | none => throw (.fault .prependToInline)

def lowerCast (position : Position) (node : Lowering) (ty : Ty) : Lower Lowered := do
  let source := node.type
  if source.scalar?.isSome && source.scalar? == ty.scalar? then node.value
  else if !ty.isScalar || !(source.isScalar || source.isArray) then
    fail position (.noCast source.text ty.text)
  else
    let rule ← liftCause position .conversion (Conversion.between source ty)
    let target ← destination position ty
    holding target do
      let staging ← workFor position target source
      pushRegister staging
      let inner ← node.value
      popRegister
      finishCast position source ty rule target inner (← conversionSource node inner)

/-- The instructions of an operator in front of an operand, and whether they use the float scratch
register. A float is negated by subtracting it from zero. -/
def unaryCode (op : UnaryOperator) (target : Register) : Code × Bool :=
  match op with
  | .not => ([.binary .xor (.reg target) (.imm 1)], false)
  | .complement => ([.unary .not (.reg target)], false)
  | .negate =>
    if target.isFloat then
      let scratch := Register.floatScratch
      let isSingle := target.size == 4
      ([.binary .xorps (.reg scratch) (.reg scratch),
        .binary (if isSingle then .subss else .subsd) (.reg scratch) (.reg target),
        .binary (if isSingle then .movss else .movsd) (.reg target) (.reg scratch)], true)
    else ([.unary .neg (.reg target)], false)

def lowerUnaryValue (position : Position) (op : UnaryOperator) (node : Lowering) (ty : Ty) :
    Lower Lowered := do
  let target ← destination position ty
  let operandCode ← node.into target
  let (code, usesScratch) := unaryCode op target
  if usesScratch then touch Register.floatScratch.family
  return .value (operandCode ++ code) target

def lowerNegate (position : Position) (node : Lowering) (constant : Option Constant) :
    Lower Lowered := do
  let ty := node.type
  if !ty.isInteger && !ty.isFloat then fail position (.cannotNegate ty.text)
  else match constant with
    | some constant =>
      if ty.isFloat then lowerFloat constant.toDouble ty
      else match constant with
        | .word value => lowerNumber position value ty
        | .float _ => lowerUnaryValue position .negate node ty
    | none => lowerUnaryValue position .negate node ty

def lowerNot (position : Position) (node : Lowering) (literal : Option Bool) : Lower Lowered := do
  if !node.type.isBool then fail position (.notBoolOperand node.type.text)
  else match literal with
    | some value => return lowerBool !value
    | none => lowerUnaryValue position .not node (.prim .bool)

def lowerComplement (position : Position) (node : Lowering) (literal : Option Int64) :
    Lower Lowered := do
  if !node.type.isInteger then fail position (.notIntegerOperand node.type.text)
  else match literal with
    | some value => lowerNumber position (~~~value) node.type
    | none => lowerUnaryValue position .complement node node.type

end Nasm64.Lower
