import Nasm64.Proofs.Value.Expr

/-! What an operator on a leaf comes to, faults included. -/
namespace Nasm64

open Lower Operation

namespace Expr

variable {env : Env} {w : World} {frame : Frame} {pos : Position} {op : Operator}
  {left right : Expr} {operation : Operation} {r : Register}

/-- An expression is always lowered to an operand that is written as the given immediate, or is none. -/
def Offers (expr : Expr) (env : Env) (immediate : Option Int64) : Prop :=
  ∀ {start fragment after operand}, Yields expr.lowering.value env start fragment after →
    fragment.operand? .reg = some operand → operand.immediate? = immediate

/-- An operator on two expressions, whose result goes into a register. -/
abbrev pending (position : Position) (left right : Expr) (operation : Operation) (register : Register) :
    Pending :=
  .within position left.lowering right.lowering operation (operation.resultType left.type) register

theorem pending_result (suits : operation.Suits op left.type right.type)
    (size : r.size = (operation.resultType left.type).registerSize) :
    (pending pos left right operation r).result = r := by
  refine (Pending.within_result ?_).trans (by rw [← size])
  rw [lowering_type, suits.size]
  simp only [realizes_compares suits.realizes]

/-- Code for an operator on a leaf: it presents the operands, the second of them as the leaf gives it,
and goes on with the code of the operator. -/
theorem leafOperator_lowered (w : World) (first : left.Integral frame.scope)
    (second : right.Integral frame.scope) (leaf : right.isLeaf = true)
    (defined : ofTypes left.type op right.type = .ok operation) (ord : frame.Ordinary)
    (pooled : r.family ∈ Register.poolFamilies false)
    (size : r.size = (operation.resultType left.type).registerSize) :
    ∃ (evaluation : Code) (operand : Operand) (before next : Frame),
      Yields ((binary pos op left right (operation.resultType left.type)).lowering.answer
        (.register r)) env frame (.value (evaluation ++
        (before.applied operation (pending pos left right operation r).work
        (pending pos left right operation r).target operand).1) r) next ∧
      (pending pos left right operation r).Presents (.integral w frame.scope) (left.burden env +
        right.burden env + 16) (left.meaning frame.scope) (right.meaning frame.scope) operand
        evaluation ∧ ∃ start offered after, Yields right.lowering.value env start offered after ∧
      offered.operand? .reg = some operand := by
  have suits := ofTypes_suits first.type_integral second.type_integral defined
  obtain ⟨lefts, _⟩ := first.computed env w
  obtain ⟨rights, _⟩ := second.computed env w
  have general := Register.mem_poolFamilies_isFloat pooled
  have working : r.Working false :=
    .of_width (List.mem_cons_of_mem _ pooled) (size ▸ Ty.registerSize_cases suits.integral)
  -- Nothing is asked of the operator here: what it makes of its operands is `applied_outcome`.
  have unasked : Operates (.integral w frame.scope) operation left.type.registerSize
      (fun _ _ => none) := by
    intro _ _ _ _ _ _ _ _ _ _ _ _ absent
    cases absent
  have computes : (pending pos left right operation r).Computes env _ _ _ _ _ _ _ _ _ :=
    within_computes pooled defined suits.width lefts rights unasked
  have spared : ∀ other, ((frame.push r).push (pending pos left right operation
      r).work).Seconds false left.lowering.type.registerSize other → right.lowering.Accepts
        (other :: (pending pos left right operation r).work :: r :: frame.held) := by
    intro other seconds
    cases seconds with
    | free found => exact .inl (Frame.free_fresh found).pooled
    | staging => exact .inr ⟨right.lowering_isLeaf.trans leaf, rfl⟩
  obtain ⟨evaluation, operand, before, _, presents, offered, runs⟩ :=
    leftThenLeaf_presents (ord.push working.ordinary) rfl computes (Nat.le_refl _) (.inl pooled)
      spared
  have combined := runs _ _ (yields_apply.mpr ⟨fun _ => general, rfl, rfl⟩)
  rw [applied_register.trans (pending_result suits size)] at combined
  have nonzero : left.lowering.type.registerSize ≠ 0 := by
    have := Ty.registerSize_cases lefts.integral
    omega
  have found : ofTypes left.lowering.type op right.lowering.type = .ok operation := by
    rw [lowering_type, lowering_type, defined]
  obtain ⟨next, lowered⟩ : ∃ next, Yields (lowerBinary pos op left.lowering right.lowering
      fun _ => fourLeaves left right) env (frame.push r) (.value _ r) next :=
    lowerBinary_within rfl found (by rw [lowering_type]) computes.rightWidth nonzero
      ⟨general.trans (Ty.isFloat_of_isIntegral lefts.integral).symm,
        general.trans (Ty.isFloat_of_isIntegral suits.integral).symm⟩
      (yields_lowerPending.mpr (.inl ⟨right.lowering_isLeaf.trans leaf, combined⟩))
  refine ⟨evaluation, operand, before, next.pop, ?_, presents, offered⟩
  rw [lowering_binary]
  exact Lowering.yields_prepare.mpr ⟨working.valid, _, next, lowered,
    (if_pos (by simp [Register.aliases])).symm, rfl⟩

/-- An operator on a leaf, lowered into a register, comes to what its instructions make of the values
of its operands. An immediate has the bytes of the value that it stands for. -/
theorem leafOperator_outcome (first : left.Integral frame.scope)
    (second : right.Integral frame.scope) (leaf : right.isLeaf = true)
    (offers : right.Offers env immediate)
    (defined : ofTypes left.type op right.type = .ok operation) (ordinary : frame.Ordinary)
    (pooled : r.family ∈ Register.poolFamilies false)
    (size : r.size = (operation.resultType left.type).registerSize) :
    ∃ code next,
      Yields ((binary pos op left right (operation.resultType left.type)).lowering.answer
        (.register r)) env frame (.value code r) next ∧
      ∀ (w : World) (m : Machine) (first second : BitVec 64), m.Hosts frame.scope →
      (binary pos op left right (operation.resultType left.type)).burden env ≤ m.room →
      left.value? (m.local? frame.scope) = some first →
      right.value? (m.local? frame.scope) = some second →
      m.outcome? w code r = left.type.outcome? op immediate first second ∧
      ∀ value ∈ immediate, Word.low left.type.bytes value.toBitVec = second := by
  have suits := ofTypes_suits first.type_integral second.type_integral defined
  obtain ⟨code, next, run⟩ : ∃ code next, Yields ((binary pos op left right
      (operation.resultType left.type)).lowering.answer (.register r)) env frame
      (.value code r) next := by
    obtain ⟨_, _, _, next, run, _⟩ :=
      leafOperator_lowered .clearing first second leaf defined ordinary pooled size
    exact ⟨_, next, run⟩
  refine ⟨code, next, run, fun w m leftValue rightValue hosts room lefts rights => ?_⟩
  -- The code does not depend on the world that it is run in.
  obtain ⟨evaluation, operand, before, _, again, presents, _, _, _, offered, found⟩ :=
    leafOperator_lowered w first second leaf defined ordinary pooled size
  obtain ⟨same, _⟩ := run.unique again
  cases same
  obtain ⟨middle, ran, fits, presented⟩ :=
    presents m leftValue rightValue hosts (by simpa only [burden] using room) lefts rights
  have width : (pending pos left right operation r).work.size = left.type.registerSize := by
    show left.lowering.type.registerSize = _
    rw [lowering_type]
  have same : (pending pos left right operation r).target.family =
      (pending pos left right operation r).work.family :=
    show r.family = r.family from rfl
  have placed : resultOf operation (pending pos left right operation r).work
      (pending pos left right operation r).target = r := pending_result suits size
  have combined := Machine.applied_outcome before suits.realizes width same presented fits
  rw [applied_register, placed, offers offered found] at combined
  refine ⟨(Machine.outcome?_append ran).trans combined, fun value written => ?_⟩
  have constant : operand = .imm value := by
    have known := (offers offered found).trans written
    cases operand <;> cases known
    rfl
  have content := presented.right
  rw [width, constant] at content
  exact Option.some.inj content

end Expr
end Nasm64
