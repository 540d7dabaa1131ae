import Mathlib.Data.List.Basic
import Nasm64.Lower.Binary
import Nasm64.Proofs.Lower.Apply
import Nasm64.Proofs.Lower.Lowering

/-! The successful runs of the strategies for binary operators. -/
namespace Nasm64

theorem Ty.isFloat_eq (ty : Ty) : ty.isFloat = ty.scalar?.elim false Scalar.isFloat := by cases ty <;> rfl

def Lower.resultClass (operation : Operation) (isFloat : Bool) : Bool :=
  !compares operation && isFloat

namespace Operation

open Lower (resultClass)

/-- The type of the result is of the class of the register that it is left in. -/
def isClassed (float : Bool) (operation : Operation) : Bool :=
  operation.result.elim float Primitive.isFloat == resultClass operation float

theorem select?_isClassed (left : Scalar) (op : Operator) (right : Scalar) :
    (select? left op right).all (isClassed left.isFloat) = true := by
  unfold select?
  split
  · split
    · generalize Scalar.isFloat _ = float
      generalize Primitive.isSigned _ = signed
      cases float <;> cases signed <;> cases op <;> rfl
    · split
      · generalize Scalar.isFloat _ = float
        generalize (_ == Primitive.f64) = double
        cases float <;> cases double <;> cases op <;> rfl
      · split
        · generalize Scalar.isFloat _ = float
          cases float <;> cases op <;> rfl
        · rfl
  · split
    · cases op <;> rfl
    · rfl
  · cases op <;> rfl
  · rfl

theorem select?_alike {left right : Scalar} {op : Operator} {oper : Operation}
    (found : select? left op right = some oper) : right.isFloat = left.isFloat := by
  have general (prim : Primitive) (integer : prim.isInteger = true) :
      prim.isFloat = false := by
    cases prim <;> first | rfl | cases integer
  unfold select? at found
  split at found
  · next first second =>
    split at found
    · next integers =>
      simp only [Bool.and_eq_true] at integers
      rw [Scalar.isFloat, Scalar.isFloat, general _ integers.1.1, general _ integers.1.2]
    · split at found
      · next floats =>
        simp only [Bool.and_eq_true, beq_iff_eq] at floats
        rw [floats.2]
      · split at found
        · next bools =>
          simp only [Bool.and_eq_true, beq_iff_eq] at bools
          rw [bools.1, bools.2]
        · cases found
  · split at found
    · next words =>
      simp only [Bool.or_eq_true, beq_iff_eq] at words
      rcases words with rfl | rfl <;> rfl
    · cases found
  · rfl
  · cases found

theorem ofTypes_classes {left right : Ty} {op : Operator} {oper : Operation}
    (found : ofTypes left op right = .ok oper) :
    left.scalar?.isSome = true ∧ right.scalar?.isSome = true ∧ right.isFloat = left.isFloat ∧
      (oper.resultType left).scalar?.isSome = true ∧
      resultClass oper left.isFloat = (oper.resultType left).isFloat := by
  unfold ofTypes at found
  cases known : left.scalar? with
  | none => simp [known] at found
  | some leftScalar =>
    cases other : right.scalar? with
    | none => simp [known, other] at found
    | some rightScalar =>
      cases selected : select? leftScalar op rightScalar with
      | none => simp [known, other, selected] at found
      | some chosen =>
        simp only [known, other, selected, Except.ok.injEq] at found
        subst found
        have alike := select?_alike selected
        have classed := select?_isClassed leftScalar op rightScalar
        have class_ : left.isFloat = leftScalar.isFloat := by simp [Ty.isFloat_eq, known]
        rw [selected, ← class_] at classed
        simp only [Option.all_some, isClassed, beq_iff_eq] at classed
        refine ⟨rfl, rfl, by simp [Ty.isFloat_eq, known, other, alike], ?_, ?_⟩
        · unfold resultType
          cases chosen.result with
          | none => simp [known]
          | some => rfl
        · rw [← classed, resultType]
          cases chosen.result <;> rfl

end Operation

namespace Lower

variable {env : Env} {frame next : Frame}

theorem yields_leftThenLeaf :
    Yields (leftThenLeaf pending) env frame frag next ↔
      ∃ second start, Yields (spareFor pending.work) env (frame.push pending.work) second start ∧
      ∃ leftCode mid, Yields (pending.left.into pending.work) env start leftCode mid ∧
      ∃ right after, Yields pending.right.value env (mid.push second) right after ∧
      right.shape ≠ .effect ∧ ∃ applied,
      Yields (apply pending.position pending.operation pending.work pending.target
        ((right.operand? .reg).getD (.reg second))) env (after.touchFor right second).pop.pop
        applied next ∧ frag = .value (leftCode ++ right.code ++ applied.1) applied.2 := by
  have allowed : ∀ right : Lowered,
      ([.inline, .value] : List Shape).contains right.shape = true ↔ right.shape ≠ .effect := by
    intro right
    cases right <;> simp [Fragment.shape]
  simp only [leftThenLeaf, yields_bind, Lowering.yields_finish, allowed]
  simp [eq_comm (a := frag)]

def spillCode (work second : Register) (left right : Code) : Code :=
  left ++ pushCode work ++ zero work ++ right ++ pushCode work ++ popCode second ++ popCode work

theorem yields_spill :
    Yields (spill pending) env frame frag next ↔
      ∃ leftCode mid, Yields (pending.left.into pending.work) env (frame.push pending.work) leftCode
        mid ∧ ∃ rightCode after, Yields (pending.right.into pending.work) env (mid.saved 1)
        rightCode after ∧ ∃ second spare,
      Yields (takeSpareFor pending.work) env (after.saved 1) second spare ∧
      ∃ applied,
      Yields (apply pending.position pending.operation pending.work pending.target (.reg second))
        env (spare.restored 2).pop applied next ∧
      frag = .value (spillCode pending.work second leftCode rightCode ++ applied.1) applied.2 := by
  simp [spill, yields_savePush, yields_restorePop, Frame.restored_restored, spillCode, and_assoc,
    eq_comm (a := frag)]

theorem yields_leafThenComposite :
    Yields (leafThenComposite pending) env frame frag next ↔
      (∃ error, (frame.push pending.work).free pending.work.isFloat pending.work.size =
        .error error ∧ Yields (spill pending) env frame frag next) ∨
      ∃ second, (frame.push pending.work).free pending.work.isFloat pending.work.size = .ok second ∧
      ∃ leftCode mid, Yields (pending.left.into pending.work) env
        ((frame.push pending.work).touch second.family) leftCode mid ∧
      ∃ rightCode after, Yields (pending.right.into second) env (mid.push second) rightCode after ∧
      ∃ applied,
      Yields (apply pending.position pending.operation pending.work pending.target (.reg second))
        env after.pop.pop applied next ∧ frag =
        .value (leftCode ++ rightCode ++ applied.1) applied.2 := by
  simp only [leafThenComposite, yields_bind, yields_pushRegister, yields_acquire?]
  cases found : (frame.push pending.work).free pending.work.isFloat pending.work.size with
  | error error => simp [found, Frame.noting]
  | ok second => simp [found, Frame.noting, eq_comm (a := frag)]

def Frame.takeMany (isFloat : Bool) (size : Int) : Nat → Frame → Option (List Register) × Frame
  | 0, frame => (some [], frame)
  | count + 1, frame =>
    match frame.free isFloat size with
    | .error _ => (none, frame)
    | .ok register =>
      match takeMany isFloat size count ((frame.touch register.family).push register) with
      | (some registers, after) => (some (register :: registers), after)
      | (none, after) => (none, after.pop)

theorem yields_acquireMany? : Yields (acquireMany? isFloat size count) env frame res next ↔
    Frame.takeMany isFloat size count frame = (res, next) := by
  induction count generalizing frame res next with
  | zero => simp [acquireMany?, Frame.takeMany]
  | succ count ih =>
    simp only [acquireMany?, Frame.takeMany, yields_bind, yields_acquire?]
    cases found : frame.free isFloat size with
    | error error => simp [Frame.noting]
    | ok r =>
      cases taken : Frame.takeMany isFloat size count ((frame.touch r.family).push r) with
      | mk registers after => cases registers <;> simp [Frame.noting, ih, taken, and_comm]

def FourRegisters (env : Env) (frame : Frame) (pending : Pending) (leaves : FourLeaves)
    (leftOperation rightOperation : Operation) (fragment : Lowered) (next : Frame) : Prop :=
  let work := pending.work
  ∃ second third fourth start, Frame.takeMany work.isFloat work.size 3 (frame.push work) =
      (some [second, third, fourth], start) ∧
  ∃ firstCode afterFirst, Yields (leaves.first.into work) env start firstCode afterFirst ∧
  ∃ secondCode afterSecond, Yields (leaves.second.into second) env afterFirst secondCode
      afterSecond ∧
  ∃ thirdCode afterThird, Yields (leaves.third.into third) env afterSecond thirdCode afterThird ∧
  ∃ fourthCode afterFourth, Yields (leaves.fourth.into fourth) env afterThird fourthCode
      afterFourth ∧
  ∃ left afterLeft, Yields (apply pending.left.position leftOperation work work (.reg second)) env
      afterFourth.pop.pop.pop.pop left afterLeft ∧
  ∃ right afterRight, Yields (apply pending.right.position rightOperation third third
      (.reg fourth)) env afterLeft right afterRight ∧
  ∃ applied, Yields (apply pending.position pending.operation work pending.target (.reg third)) env
      afterRight applied next ∧
    fragment = .value (firstCode ++ secondCode ++ thirdCode ++ fourthCode ++ left.1 ++ right.1 ++
      applied.1) applied.2

theorem takeMany_length (taken : Frame.takeMany isFloat size count frame = (some registers, next)) :
    registers.length = count := by
  induction count generalizing frame registers with
  | zero =>
    cases taken
    rfl
  | succ count ih =>
    simp only [Frame.takeMany] at taken
    split at taken
    · cases taken
    · split at taken
      · rename_i inner
        cases taken
        simp [ih inner]
      · cases taken

theorem isSimple_compares (simple : isSimple op.family = true) : compares op = false := by
  unfold compares
  cases known : op.family <;> rw [known] at simple <;> first | rfl | cases simple

/-- What the fast path is given: leaves of the class and the width of a register, and simple
operators between them. -/
theorem simpleOperations?_eq_some
    (found : simpleOperations? work leaves = some (leftOperation, rightOperation)) :
    (∀ leaf ∈ [leaves.first, leaves.second, leaves.third, leaves.fourth], leaf.isLeaf = true ∧
        leaf.type.isFloat = work.isFloat ∧ leaf.type.registerSize = work.size) ∧
      Operation.ofTypes leaves.first.type leaves.leftOp leaves.second.type = .ok leftOperation ∧
      Operation.ofTypes leaves.third.type leaves.rightOp leaves.fourth.type = .ok rightOperation ∧
      isSimple leftOperation.family = true ∧ isSimple rightOperation.family = true := by
  unfold simpleOperations? at found
  split at found
  · rename_i fitting
    split at found
    · rename_i leftFound rightFound
      split at found
      · rename_i simple
        cases found
        refine ⟨?_, leftFound, rightFound, Bool.and_eq_true_iff.mp simple⟩
        intro leaf mem
        have fit := List.all_eq_true.mp fitting leaf mem
        simp only [fits, Bool.and_eq_true, beq_iff_eq] at fit
        exact ⟨fit.1.1, fit.1.2, fit.2⟩
      · cases found
    · cases found
  · cases found

theorem yields_fastPath? :
    Yields (fastPath? pending leaves) env frame res next ↔
      (simpleOperations? pending.work leaves = none ∧ res = none ∧ next = frame) ∨
      ∃ leftOperation rightOperation, simpleOperations? pending.work leaves =
        some (leftOperation, rightOperation) ∧
      ((∃ start, Frame.takeMany pending.work.isFloat pending.work.size 3 (frame.push pending.work) =
        (none, start) ∧ res = none ∧ next = start.pop) ∨ ∃ frag, res = some frag ∧
        FourRegisters env frame pending leaves leftOperation rightOperation frag next) := by
  cases found : simpleOperations? pending.work leaves with
  | none => simp [fastPath?, found, eq_comm]
  | some pair =>
    obtain ⟨leftOperation, rightOperation⟩ := pair
    cases taken : Frame.takeMany pending.work.isFloat pending.work.size 3 (frame.push pending.work) with
    | mk registers start =>
      cases registers with
      | none =>
        simp only [fastPath?, FourRegisters, found, taken, yields_bind, yields_pushRegister,
          yields_acquireMany?, yields_popRegister, yields_pure, exists_eq_left', exists_const,
          exists_and_left, and_assoc, Prod.mk.injEq, Option.some.injEq, reduceCtorEq, false_and,
          exists_false, and_false, or_false, false_or, true_and]
        exact and_congr eq_comm eq_comm
      | some registers =>
        obtain ⟨second, third, fourth, rfl⟩ := List.length_eq_three.mp (takeMany_length taken)
        simp only [fastPath?, FourRegisters, found, taken, yields_bind, yields_pushRegister,
          yields_acquireMany?, yields_popRegister, yields_pure, exists_eq_left', exists_const,
          exists_and_left, and_assoc, Prod.mk.injEq, Prod.exists,
          Option.some.injEq, reduceCtorEq, false_and, false_or]
        constructor
        · rintro ⟨_, _, first, _, _, second, _, _, third, _, _, fourth, _, _, _, left, _, _, _, right,
            _, _, _, applied, rfl, rfl⟩
          exact ⟨_, rfl, _, _, _, rfl, _, _, first, _, _, second, _, _, third, _, _, fourth, _, _, _,
            left, _, _, _, right, _, _, applied, by simp⟩
        · rintro ⟨_, rfl, _, _, _, same, _, _, first, _, _, second, _, _, third, _, _, fourth, _, _,
            _, left, _, _, _, right, _, _, applied, rfl⟩
          cases same
          exact ⟨_, _, first, _, _, second, _, _, third, _, _, fourth, _, _, _, left, _, _, _, right,
            _, _, _, applied, by simp⟩

theorem yields_lowerPending :
    Yields (lowerPending pending leaves) env frame frag next ↔
      (pending.right.isLeaf = true ∧ Yields (leftThenLeaf pending) env frame frag next) ∨
      (pending.right.isLeaf = false ∧ pending.left.isLeaf = true ∧
        Yields (leafThenComposite pending) env frame frag next) ∨
      (pending.right.isLeaf = false ∧ pending.left.isLeaf = false ∧
        (((env.hasFeature .fastPath = false ∨ leaves = none) ∧
        Yields (spill pending) env frame frag next) ∨ ∃ four, env.hasFeature .fastPath = true ∧
        leaves = some four ∧ ∃ res mid, Yields (fastPath? pending four) env frame res mid ∧
        (res = some frag ∧ next = mid ∨ res = none ∧
        Yields (spill pending) env mid frag next))) := by
  unfold lowerPending
  cases pending.right.isLeaf with
  | true => simp
  | false =>
    cases pending.left.isLeaf with
    | true => simp
    | false =>
      cases feature : env.hasFeature .fastPath with
      | false => simp [feature]
      | true =>
        cases leaves with
        | none => simp
        | some four =>
          simp [feature, Option.exists, and_or_left, exists_or, or_comm, eq_comm (a := next)]

theorem yields_lowerBinary :
    Yields (lowerBinary pos op left right leaves) env frame frag next ↔
      left.type.registerSize = right.type.registerSize ∧ left.type.registerSize ≠ 0 ∧
      ∃ oper, Operation.ofTypes left.type op right.type = .ok oper ∧
      ∃ tgt start, Yields (destination pos (oper.resultType left.type)) env frame tgt start ∧
      ∃ work mid, Yields (workFor pos tgt left.type) env (start.hold tgt) work mid ∧
      ∃ after, Yields (lowerPending ⟨pos, left, right, oper, tgt, work⟩ (leaves ())) env mid frag
        after ∧ next = start.unhold tgt after := by
  simp [lowerBinary, yields_ite, yields_liftCause, yields_holding, and_assoc, eq_comm (a := next)]
  grind

end Lower
end Nasm64
