import Nasm64.Lower.Frame
import Nasm64.Operation
import Nasm64.Proofs.Machine.Step

/-! What integral expressions mean, apart from any code: integers, booleans and addresses as words of
the width of their type. -/
namespace Nasm64

namespace Operator

/-- The number of bits of a shift count that count. -/
def countBits (width : Nat) : Nat := if width = 64 then 64 else 32

/-- Arithmetic at one width. Division by zero and a quotient that does not fit have no result. -/
def word? (op : Operator) (signed : Bool) {width : Nat} (left right : BitVec width) :
    Option (BitVec width) :=
  let divisible : Bool :=
    right ≠ 0 && !(signed && left == BitVec.intMin width && right == BitVec.allOnes width)
  match op with
  | add => some (left + right)
  | sub => some (left - right)
  | mul => some (left * right)
  | div => if divisible then some (if signed then left.sdiv right else left / right) else none
  | rem => if divisible then some (if signed then left.srem right else left % right) else none
  | and | andAlso => some (left &&& right)
  | or | orElse => some (left ||| right)
  | xor => some (left ^^^ right)
  | shl => some (left <<< (right.toNat % countBits width))
  | shr =>
    let count := right.toNat % countBits width
    some (if signed then left.sshiftRight count else left >>> count)
  | _ => none

/-- A quotient or a remainder of a word of some size, at 32 bits at least. The divisor is extended
already. -/
def divide? (op : Operator) (signed : Bool) (size : Int) (left divisor : BitVec 64) :
    Option (BitVec 64) :=
  let width := 8 * (max size 4).toNat
  (op.word? signed ((Word.extend signed size.toNat left).setWidth width) (divisor.setWidth width)).map
    fun result => Word.low size.toNat (result.setWidth 64)

def relation? (op : Operator) (signed : Bool) {width : Nat} (left right : BitVec width) :
    Option Bool :=
  let less (left right : BitVec width) : Bool := if signed then left.slt right else left.ult right
  match op with
  | eq => some (left == right)
  | ne => some (left != right)
  | lt => some (less left right)
  | gt => some (less right left)
  | le => some (!less right left)
  | ge => some (!less left right)
  | _ => none

end Operator

namespace Ty

def isIntegral (ty : Ty) : Bool := ty.isInteger || ty.isBool || ty.isPointer

def bytes (ty : Ty) : Nat := ty.registerSize.toNat

/-- An operator on two words, by the width and the sign of the left one. -/
def operate? (ty : Ty) (op : Operator) (left right : BitVec 64) : Option (BitVec 64) :=
  let left := left.setWidth (8 * ty.bytes)
  let right := right.setWidth (8 * ty.bytes)
  match op.relation? ty.isSigned left right with
  | some holds => some (if holds then 1 else 0)
  | none => (op.word? ty.isSigned left right).map (·.setWidth 64)

theorem registerSize_prim (primitive : Primitive) :
    (prim primitive).registerSize = primitive.bytes := by
  cases primitive <;> rfl

section

variable {ty : Ty}

theorem bytes_le (scalar : ty.isScalar = true) : ty.bytes ≤ 8 := by
  cases ty with
  | prim primitive => cases primitive <;> decide
  | pointer => exact Nat.le_refl 8
  | void | array | struct => cases scalar

section

variable (integral : ty.isIntegral = true)

include integral

theorem isIntegral_cases :
    (∃ primitive, ty = .prim primitive ∧ primitive.isFloat = false) ∨ ∃ target, ty = .pointer target := by
  cases ty with
  | prim primitive => exact .inl ⟨primitive, rfl, by cases primitive <;> first | rfl | cases integral⟩
  | pointer target => exact .inr ⟨target, rfl⟩
  | void | array | struct => cases integral

theorem registerSize_cases :
    ty.registerSize = 1 ∨ ty.registerSize = 2 ∨ ty.registerSize = 4 ∨ ty.registerSize = 8 := by
  obtain ⟨primitive, rfl, _⟩ | ⟨target, rfl⟩ := isIntegral_cases integral
  · rw [registerSize_prim]
    cases primitive <;> decide
  · exact .inr (.inr (.inr rfl))

theorem bytes_cast : (ty.bytes : Int) = ty.registerSize := by
  rcases registerSize_cases integral with same | same | same | same <;> rw [bytes, same] <;> rfl

theorem bytes_cases : ty.bytes = 1 ∨ ty.bytes = 2 ∨ ty.bytes = 4 ∨ ty.bytes = 8 := by
  have cast := bytes_cast integral
  have sizes := registerSize_cases integral
  omega

theorem isFloat_of_isIntegral : ty.isFloat = false := by
  obtain ⟨primitive, rfl, general⟩ | ⟨target, rfl⟩ := isIntegral_cases integral
  · exact general
  · rfl

end

theorem prim_of_isInteger (integer : ty.isInteger = true) : ∃ primitive, ty = .prim primitive := by
  cases ty with
  | prim primitive => exact ⟨primitive, rfl⟩
  | void | pointer | array | struct => cases integer

theorem isIntegral_of_isInteger (integer : ty.isInteger = true) : ty.isIntegral = true := by
  simp [isIntegral, integer]

end

end Ty

namespace Expr

/-- The value of an expression, from those of the variables. It is a word whose bytes beyond the type
are zero. -/
def value? (locals : String → Option (BitVec 64)) : Expr → Option (BitVec 64)
  | number _ value ty => some (Word.low ty.bytes value.toBitVec)
  | bool _ value => some (if value then 1 else 0)
  | ident _ name _ => locals name
  | unary _ .negate operand =>
    (operand.value? locals).map fun value => Word.low operand.type.bytes (-value)
  | unary _ .not operand => (operand.value? locals).map fun value => if value = 0 then 1 else 0
  | unary _ .complement operand =>
    (operand.value? locals).map fun value => Word.low operand.type.bytes (~~~value)
  | cast _ operand ty =>
    (operand.value? locals).map fun value =>
      Word.low ty.bytes (Word.extend operand.type.isSigned operand.type.bytes value)
  | binary _ op left right _ => do
    let first ← left.value? locals
    let second ← right.value? locals
    left.type.operate? op first second
  | _ => none

open Lower

/-- Well-typed expressions over integers, booleans and addresses. Operators are those of the operation
matrix, and division is at 32 and 64 bits. -/
inductive Integral (scope : List (String × Variable)) : Expr → Prop
  | number {position : Position} {value : Int64} {ty : Ty} (integer : ty.isInteger = true) :
    Integral scope (.number position value ty)
  | bool {position : Position} {value : Bool} : Integral scope (.bool position value)
  | ident {position : Position} {name : String} {slot : Variable}
    (found : scope.lookup name = some slot) (scalar : slot.type.isIntegral = true) :
    Integral scope (.ident position name slot.type)
  | negate {position : Position} {operand : Expr} (inner : Integral scope operand)
    (integer : operand.type.isInteger = true) : Integral scope (.unary position .negate operand)
  | not {position : Position} {operand : Expr} (inner : Integral scope operand)
    (isBool : operand.type.isBool = true) : Integral scope (.unary position .not operand)
  | complement {position : Position} {operand : Expr} (inner : Integral scope operand)
    (integer : operand.type.isInteger = true) : Integral scope (.unary position .complement operand)
  | cast {position : Position} {operand : Expr} {ty : Ty} (inner : Integral scope operand)
    (source : operand.type.isInteger = true ∨ operand.type.isBool = true)
    (target : ty.isInteger = true) : Integral scope (.cast position operand ty)
  | binary {position : Position} {op : Operator} {left right : Expr} {operation : Operation}
    (first : Integral scope left) (second : Integral scope right)
    (defined : Operation.ofTypes left.type op right.type = .ok operation)
    (wide : op = .div ∨ op = .rem → left.type.registerSize = 4 ∨ left.type.registerSize = 8) :
    Integral scope (.binary position op left right (operation.resultType left.type))

end Expr
end Nasm64
