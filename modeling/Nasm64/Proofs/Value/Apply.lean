import Nasm64.Proofs.Value.Accumulator

/-! The code of an operator computes the operator. -/
namespace Nasm64

open Lower

/-- What the instructions for an operator make of two words, the second of which may be written as an
immediate, unless they fault. -/
def Ty.outcome? (ty : Ty) (op : Operator) (immediate : Option Int64) (left right : BitVec 64) :
    Option (BitVec 64) :=
  if op = .div ∨ op = .rem then
    op.divide? ty.isSigned ty.registerSize left
      (Word.divisor ty.isSigned ty.registerSize immediate right)
  else ty.operate? op left right

namespace Operation.Realizes

variable {op : Operator} {oper : Operation}

theorem divides (realizes : oper.Realizes op signed) (equal : op = .div ∨ op = .rem) :
    oper.Divides op signed := by
  cases realizes with
  | division same mn sign => exact ⟨same, mn, sign⟩
  | direct _ _ _ word =>
    -- a quotient by zero is not a word
    have zero := (word (0 : BitVec 1) 0).2
    rcases equal with rfl | rfl <;> cases zero
  | shift _ _ word =>
    have zero := (word (0 : BitVec 1) 0).2
    rcases equal with rfl | rfl <;> cases zero
  | product same | unsignedProduct same =>
    rcases equal with equal | equal <;> cases equal.symm.trans same
  | comparison _ _ _ _ relation =>
    have compared := relation (0 : BitVec 1) 0
    rcases equal with rfl | rfl <;> cases compared

/-- The other operators have a result on all words. -/
theorem total {ty : Ty} (realizes : oper.Realizes op ty.isSigned) (other : ¬(op = .div ∨ op = .rem))
    (left right : BitVec 64) : ∃ result, ty.operate? op left right = some result := by
  dsimp only [Ty.operate?]
  cases realizes with
  | direct _ _ _ word | shift _ _ word =>
    obtain ⟨apart, meaning⟩ := word (left.setWidth (8 * ty.bytes)) (right.setWidth _)
    exact ⟨_, by rw [apart, meaning]; rfl⟩
  | product same | unsignedProduct same => exact ⟨_, by rw [same]; rfl⟩
  | division same => exact absurd (same.imp And.left And.left) other
  | comparison _ _ _ _ relation => exact ⟨_, by rw [relation]⟩

end Operation.Realizes

namespace Machine

variable {w : World} {m : Machine} {work : Register} {opnd : Operand}
  {left right : BitVec 64}

theorem applied_division {frame : Frame} {dst : Register} (divides : oper.Divides op signed) :
    frame.applied oper work dst opnd = (frame.accumulatorCode oper work opnd, work) := by
  rcases divides.same with ⟨_, fam⟩ | ⟨_, fam⟩ <;> simp only [Frame.applied, fam] <;> rfl

theorem applied_runs (frame : Frame) {ty : Ty} {oper : Operation} {tgt : Register}
    (realizes : oper.Realizes op ty.isSigned)
    (wide : op = .div ∨ op = .rem → work.size = 4 ∨ work.size = 8)
    (width : work.size = ty.registerSize) (same : tgt.family = work.family)
    (presents : m.Presents false w work opnd left right) (fits : 16 ≤ m.room)
    (defined : ty.operate? op left right = some result) :
    ∃ after, run w (frame.applied oper work tgt opnd).1 m = some after ∧
      after.view (frame.applied oper work tgt opnd).2 = result := by
  obtain ⟨family, size⟩ := work
  obtain rfl : size = ty.registerSize := width
  unfold Ty.operate? at defined
  cases realizes with
  | direct kind known plain word =>
    obtain ⟨apart, meaning⟩ := word (left.setWidth (8 * ty.bytes)) (right.setWidth _)
    simp only [apart, meaning, Option.map_some, Option.some.injEq] at defined
    have code : frame.applied oper ⟨family, ty.registerSize⟩ tgt opnd =
        (applyDirect oper.mnemonic ⟨family, ty.registerSize⟩ opnd,
          ⟨family, ty.registerSize⟩) := by
      rcases kind with kind | kind <;> simp only [Frame.applied, kind]
    rw [code]
    obtain ⟨after, ran, view⟩ := direct_runs presents known fun same => absurd same plain
    exact ⟨after, ran, view.trans defined⟩
  | product equal kind mnemonic =>
    subst equal
    simp only [Operator.relation?, Operator.word?, Option.map_some, Option.some.injEq] at defined
    simp only [Frame.applied, kind]
    by_cases byte : ty.registerSize = 1
    · obtain ⟨after, ran, view⟩ := byteProduct_runs presents byte
      refine ⟨after, ran, view.trans (Eq.trans ?_ defined)⟩
      rw [show ty.bytes = 1 by rw [Ty.bytes, byte]; rfl]
    · have wider : 1 < ty.registerSize := by
        have := presents.working.width
        simp only at this
        omega
      have known : Mnemonic.imul.arithmetic? = some fun _ first second => first * second := rfl
      obtain ⟨after, ran, view⟩ := direct_runs presents known fun _ => byte
      refine ⟨after, ?_, view.trans defined⟩
      simpa only [applyMul, if_pos wider] using ran
  | unsignedProduct equal kind mnemonic unsigned =>
    subst equal
    simp only [Operator.relation?, Operator.word?, Option.map_some, Option.some.injEq] at defined
    simp only [Frame.applied, kind]
    obtain ⟨after, ran, view⟩ := product_runs frame presents fits kind mnemonic
    exact ⟨after, ran, view.trans defined⟩
  | division equal mnemonic sign =>
    have divides : op = .div ∨ op = .rem := equal.imp And.left And.left
    have word : (op.word? ty.isSigned (left.setWidth (8 * ty.bytes)) (right.setWidth _)).map
        (·.setWidth 64) = some result := by
      rcases divides with rfl | rfl <;> exact defined
    have outcome := division_outcome frame presents fits ⟨equal, mnemonic, sign⟩
    rw [Operator.divide?_wide (wide divides), ← @Word.setWidth_low _ (Word.divisor _ _ _ _),
      presents.low_divisor] at outcome
    rw [applied_division ⟨equal, mnemonic, sign⟩]
    exact Option.map_eq_some_iff.mp (outcome.trans word)
  | shift kind known word =>
    obtain ⟨apart, meaning⟩ := word (left.setWidth (8 * ty.bytes)) (right.setWidth _)
    simp only [apart, meaning, Option.map_some, Option.some.injEq] at defined
    simp only [Frame.applied, kind]
    obtain ⟨after, ran, shifted⟩ := shift_runs frame presents known (by omega)
    exact ⟨after, ran, Eq.trans shifted defined⟩
  | comparison kind mnemonic condition known relation =>
    simp only [relation, Option.some.injEq] at defined
    simp only [Frame.applied, kind, mnemonic, condition, Option.getD_some]
    obtain ⟨after, ran, view⟩ := comparison_runs presents same known
    exact ⟨after, ran, view.trans defined⟩

/-- What code leaves in a register, unless it faults. -/
def outcome? (machine : Machine) (world : World) (code : Code) (register : Register) :
    Option (BitVec 64) :=
  (machine.run world code).map (·.view register)

theorem outcome?_append (ran : m.run w first = some mid) :
    m.outcome? w (first ++ second) r = mid.outcome? w second r := by
  rw [outcome?, run_append, ran]
  rfl

theorem applied_outcome (frame : Frame) {ty : Ty} {oper : Operation} {dst : Register}
    (realizes : oper.Realizes op ty.isSigned) (width : work.size = ty.registerSize)
    (same : dst.family = work.family) (presents : m.Presents false w work opnd left right)
    (fits : 16 ≤ m.room) :
    m.outcome? w (frame.applied oper work dst opnd).1 (frame.applied oper work dst opnd).2 =
      ty.outcome? op opnd.immediate? left right := by
  unfold outcome? Ty.outcome?
  split
  · rename_i divides
    rw [applied_division (realizes.divides divides), ← width]
    exact division_outcome frame presents fits (realizes.divides divides)
  · rename_i other
    obtain ⟨result, defined⟩ := realizes.total other left right
    obtain ⟨after, ran, view⟩ := applied_runs frame realizes (fun divides => absurd divides other) width
      same presents fits defined
    rw [ran, defined]
    exact congrArg some view

end Machine
end Nasm64
