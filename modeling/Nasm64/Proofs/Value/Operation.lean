import Nasm64.Proofs.Emission.Quiet
import Nasm64.Proofs.Value.Semantics

/-! The instruction selected for an operator has the meaning of the operator. -/
namespace Nasm64

open Operation

namespace Flags

variable {width : Nat} (left right : BitVec width)

/-- After a comparison, sign and overflow differ when the left word is less. -/
theorem sign_overflow_ofDifference :
    ((ofDifference left right).sign != (ofDifference left right).overflow) = left.slt right := by
  have leftSign := BitVec.msb_eq_toInt (x := left)
  have rightSign := BitVec.msb_eq_toInt (x := right)
  have sign := BitVec.msb_eq_toInt (x := left - right)
  simp only [ofDifference, BitVec.slt]
  cases overflows : left.ssubOverflow right with
  | false =>
    have exact_ := BitVec.toInt_sub_of_not_ssubOverflow (x := left) (y := right) (by simp [overflows])
    rw [sign, exact_, Bool.bne_false]
    exact decide_eq_decide.mpr (by omega)
  | true =>
    rw [BitVec.ssubOverflow_eq, leftSign, rightSign] at overflows
    simp only [Bool.or_eq_true, Bool.and_eq_true, Bool.not_eq_true', decide_eq_true_eq,
      decide_eq_false_iff_not] at overflows
    rcases overflows with ⟨⟨_, _⟩, negative⟩ | ⟨⟨_, _⟩, natural⟩
    · rw [negative, Bool.bne_true, Bool.not_true]
      exact (decide_eq_false (by omega)).symm
    · rw [natural, Bool.bne_true, Bool.not_false]
      exact (decide_eq_true (by omega)).symm

/-- What is greater is neither equal nor less. -/
theorem decide_flip {α : Type} [LinearOrder α] {order : BitVec width → α}
    (inj : ∀ {left right}, order left = order right → left = right) :
    decide (order right < order left) =
      (!(left == right) && !decide (order left < order right)) := by
  by_cases same : left = right
  · simp [same]
  · have unequal : (left == right) = false := by simpa using same
    rw [unequal, ← decide_not, Bool.not_false, Bool.true_and]
    exact decide_eq_decide.mpr
      ⟨not_lt_of_gt, fun least => lt_of_le_of_ne (not_lt.mp least) fun equal => same (inj equal).symm⟩

theorem slt_flip : right.slt left = (!(left == right) && !left.slt right) :=
  decide_flip left right BitVec.eq_of_toInt_eq

theorem ult_flip : right.ult left = (!(left == right) && !left.ult right) :=
  decide_flip left right BitVec.eq_of_toNat_eq

theorem signed_conditions (op : Operator) :
    op.relation? true left right = (signedCondition? op).bind fun cond =>
      cond.condition?.map fun test => test (ofDifference left right) := by
  have less := sign_overflow_ofDifference left right
  have equal : (ofDifference left right).zero = (left == right) := rfl
  have matching : ((ofDifference left right).sign == (ofDifference left right).overflow) =
      !left.slt right := by rw [← less, bne, Bool.not_not]
  cases op with
  | eq | ne | lt | ge =>
    simp [Operator.relation?, signedCondition?, Mnemonic.condition?, equal, matching, bne]
  | le | gt =>
    simp [Operator.relation?, signedCondition?, Mnemonic.condition?, equal, less, matching,
      slt_flip left right]
  | _ => rfl

theorem unsigned_conditions (op : Operator) :
    op.relation? false left right = (unsignedCondition? op).bind fun cond =>
      cond.condition?.map fun test => test (ofDifference left right) := by
  have less : (ofDifference left right).carry = left.ult right := rfl
  have equal : (ofDifference left right).zero = (left == right) := rfl
  cases op with
  | eq | ne | lt | ge =>
    simp [Operator.relation?, unsignedCondition?, Mnemonic.condition?, equal, less, bne]
  | le | gt =>
    simp [Operator.relation?, unsignedCondition?, Mnemonic.condition?, equal, less,
      ult_flip left right, Bool.or_comm, Bool.and_comm]
  | _ => rfl

end Flags

namespace Operation

/-- The ways in which an instruction computes an operator on words with or without a sign. -/
inductive Realizes (op : Operator) (signed : Bool) (operation : Operation) : Prop
  | direct {compute : (width : Nat) → BitVec width → BitVec width → BitVec width}
    (family : operation.family = .arith ∨ operation.family = .logical)
    (known : operation.mnemonic.arithmetic? = some compute) (plain : operation.mnemonic ≠ .imul)
    (word : ∀ {width} (left right : BitVec width),
      op.relation? signed left right = none ∧
        op.word? signed left right = some (compute width left right))
  | product (same : op = .mul) (family : operation.family = .mul)
    (mnemonic : operation.mnemonic = .imul)
  | unsignedProduct (same : op = .mul) (family : operation.family = .unsignedMul)
    (mnemonic : operation.mnemonic = .mul) (unsigned : operation.isSigned = false)
  | division (same : op = .div ∧ operation.family = .div ∨ op = .rem ∧ operation.family = .rem)
    (mnemonic : operation.mnemonic = if signed then .idiv else .div)
    (sign : operation.isSigned = signed)
  | shift {compute : (width : Nat) → BitVec width → Nat → BitVec width}
    (family : operation.family = .shift) (known : operation.mnemonic.shift? = some compute)
    (word : ∀ {width} (left right : BitVec width),
      op.relation? signed left right = none ∧
        op.word? signed left right =
          some (compute width left (right.toNat % Operator.countBits width)))
  | comparison {setter : Mnemonic} {test : Flags → Bool} (family : operation.family = .compare)
    (mnemonic : operation.mnemonic = .cmp) (condition : operation.condition = some setter)
    (known : setter.condition? = some test)
    (relation : ∀ {width} (left right : BitVec width),
      op.relation? signed left right = some (test (Flags.ofDifference left right)))

theorem integer?_realizes {signed : Bool} {op : Operator} {operation : Operation}
    (found : integer? signed op = some operation) : operation.Realizes op signed := by
  cases op with
  | add | sub | and | or | xor =>
    cases found
    exact .direct (.inl rfl) rfl (by simp) fun _ _ => ⟨rfl, rfl⟩
  | mul =>
    cases signed <;> cases found
    · exact .unsignedProduct rfl rfl rfl rfl
    · exact .product rfl rfl rfl
  | div =>
    cases found
    exact .division (.inl ⟨rfl, rfl⟩) rfl rfl
  | rem =>
    cases found
    exact .division (.inr ⟨rfl, rfl⟩) rfl rfl
  | shl | shr => cases signed <;> cases found <;> exact .shift rfl rfl fun _ _ => ⟨rfl, rfl⟩
  | eq | ne | lt | gt | ge | le =>
    cases signed <;> cases found
    · exact .comparison rfl rfl rfl rfl fun left right => Flags.unsigned_conditions left right _
    · exact .comparison rfl rfl rfl rfl fun left right => Flags.signed_conditions left right _
  | _ => cases signed <;> cases found

theorem bool?_realizes {op : Operator} {operation : Operation} (found : bool? op = some operation) :
    operation.Realizes op false := by
  cases op with
  | and | andAlso | or | orElse | xor =>
    cases found
    exact .direct (.inr rfl) rfl (by decide) fun _ _ => ⟨rfl, rfl⟩
  | eq | ne =>
    cases found
    exact .comparison rfl rfl rfl rfl fun left right => Flags.unsigned_conditions left right _
  | _ => cases found

theorem pointerOffset?_realizes {op : Operator} {operation : Operation}
    (found : pointerOffset? op = some operation) : operation.Realizes op false := by
  cases op with
  | add | sub =>
    cases found
    exact .direct (.inl rfl) rfl (by decide) fun _ _ => ⟨rfl, rfl⟩
  | _ => cases found

theorem pointers?_realizes {op : Operator} {operation : Operation}
    (found : pointers? op = some operation) : operation.Realizes op false := by
  cases op with
  | sub =>
    cases found
    exact .direct (.inl rfl) rfl (by decide) fun _ _ => ⟨rfl, rfl⟩
  | eq | ne | lt | gt | ge | le =>
    cases found
    exact .comparison rfl rfl rfl rfl fun left right => Flags.unsigned_conditions left right _
  | _ => cases found

def isLogical (op : Operator) : Bool :=
  match op with
  | .and | .andAlso | .or | .orElse | .xor => true
  | _ => false

/-- What is known of an operation on integral types. A boolean comes from a comparison, or from
booleans. -/
structure Suits (op : Operator) (left right : Ty) (operation : Operation) : Prop where
  realizes : operation.Realizes op left.isSigned
  width : right.registerSize = left.registerSize
  integral : (operation.resultType left).isIntegral = true
  size : (operation.resultType left).registerSize =
    if operation.family = .compare then 1 else left.registerSize
  boolean : (operation.resultType left).isBool = true → operation.family = .compare ∨
    left.isBool = true ∧ right.isBool = true ∧ isLogical op = true

variable {left right : Ty} {op : Operator} {operation : Operation}

/-- A comparison gives a boolean, and other operations what their left operand is. -/
theorem Suits.of_result (lefts : left.isIntegral = true)
    (realizes : operation.Realizes op left.isSigned)
    (width : right.registerSize = left.registerSize)
    (res : operation.result = if operation.family = .compare then some .bool else none)
    (boolean : left.isBool = true → operation.family = .compare ∨ right.isBool = true ∧
      isLogical op = true) : operation.Suits op left right := by
  by_cases compares : operation.family = .compare
  · have type : operation.resultType left = .prim .bool := by
      simp [resultType, res, compares]
    refine ⟨realizes, width, by rw [type]; rfl, ?_, fun _ => .inl compares⟩
    rw [type, if_pos compares]
    rfl
  · have type : operation.resultType left = left := by
      simp [resultType, res, compares]
    refine ⟨realizes, width, by rw [type]; exact lefts, by rw [type, if_neg compares], ?_⟩
    rw [type]
    intro isBool
    exact (boolean isBool).imp id fun both => ⟨isBool, both⟩

theorem integer?_result (found : integer? signed op = some operation) :
    operation.result = if operation.family = .compare then some .bool else none := by
  cases signed <;> cases op <;> cases found <;> rfl

theorem bool?_result (found : bool? op = some operation) : (operation.result = if operation.family =
    .compare then some .bool else none) ∧ (operation.family = .compare ∨ isLogical op = true) := by
  cases op <;> cases found <;> simp [isLogical]

theorem pointers?_suits {first second : Ty} (found : pointers? op = some operation) :
    operation.Suits op (.pointer first) (.pointer second) := by
  have realizes := pointers?_realizes found
  by_cases difference : op = .sub
  · subst difference
    cases found
    exact ⟨realizes, rfl, rfl, rfl, by simp [resultType, Ty.isBool]⟩
  · refine .of_result rfl realizes rfl ?_ (by simp [Ty.isBool])
    cases op <;> first | exact absurd rfl difference | cases found
    all_goals rfl

theorem primitives_suit (lefts : (Ty.prim first).isIntegral = true)
    (selected : select? (.prim first) op (.prim second) = some operation) :
    operation.Suits op (.prim first) (.prim second) :=
    by
  have general : first.isFloat = false := by
    cases first <;> first | rfl | cases lefts
  simp only [select?, general, Bool.false_and, Bool.false_eq_true, if_false] at selected
  split at selected
  · rename_i integers
    simp only [Bool.and_eq_true, beq_iff_eq] at integers
    obtain ⟨⟨leftInteger, _⟩, same⟩ := integers
    refine .of_result lefts (integer?_realizes selected) ?_ (integer?_result selected) ?_
    · rw [Ty.registerSize_prim, Ty.registerSize_prim, same]
    · intro isBool
      obtain rfl : first = .bool := by cases first <;> first | rfl | cases isBool
      cases leftInteger
  · split at selected
    · rename_i booleans
      simp only [Bool.and_eq_true, beq_iff_eq] at booleans
      obtain ⟨rfl, rfl⟩ := booleans
      obtain ⟨res, logical⟩ := bool?_result selected
      exact .of_result lefts (bool?_realizes selected) rfl res fun _ =>
        logical.imp id fun logical => ⟨rfl, logical⟩
    · cases selected

theorem offset_suits (selected : select? .ptr op (.prim second) = some operation) :
    operation.Suits op (.pointer dst) (.prim second) := by
  simp only [select?] at selected
  split at selected
  · rename_i wide
    have width : (Ty.prim second).registerSize = 8 := by
      simp only [Bool.or_eq_true, beq_iff_eq] at wide
      rcases wide with rfl | rfl <;> rfl
    refine .of_result rfl (pointerOffset?_realizes selected) width ?_ (by simp [Ty.isBool])
    cases op <;> cases selected <;> rfl
  · cases selected

/-- The matrix selects an instruction that suits its operator. -/
theorem ofTypes_suits (lefts : left.isIntegral = true) (rights : right.isIntegral = true)
    (found : ofTypes left op right = .ok operation) : operation.Suits op left right := by
  have chosen : ∀ {first second : Scalar}, left.scalar? = some first → right.scalar? = some second →
      select? first op second = some operation := by
    intro first second leftScalar rightScalar
    simp only [ofTypes, leftScalar, rightScalar] at found
    split at found
    · rename_i selected
      cases found
      exact selected
    · cases found
  cases left with
  | prim first =>
    cases right with
    | prim second => exact primitives_suit lefts (chosen rfl rfl)
    | pointer dst => cases chosen rfl rfl
    | void | array | struct => cases rights
  | pointer dst =>
    cases right with
    | prim second => exact offset_suits (chosen rfl rfl)
    | pointer other => exact pointers?_suits (chosen rfl rfl)
    | void | array | struct => cases rights
  | void | array | struct => cases lefts

end Operation
end Nasm64
