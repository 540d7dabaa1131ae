import Nasm64.Proofs.Emission.Node

/-! The emission of binary operators. -/
namespace Nasm64.Lower

variable {env : Env} {frame before next : Frame} {weight : Nat} {calls more : List (Option String)}

section

variable {oper : Operation} {work dst : Register} {opnd : Operand}

/-- Families that an instruction overwrites are saved around it when something relies on them. -/
theorem inUseOf_bracketed {families : List Family} (ord : ∀ fam ∈ families, fam.isOrdinary = true)
    (fits : 8 * families.length ≤ weight) (quiet : Quiet written code)
    (covered : ∀ fam ∈ written, fam = res ∨ fam ∈ families) :
    Bracketed env frame.depth none weight (frame.mayChange [res])
      (saveCode (frame.inUseOf families) ++ code ++ restoreCode (frame.inUseOf families)) := by
  have few : (frame.inUseOf families).length ≤ families.length := by
    simpa [Frame.inUseOf] using List.length_filter_le frame.inUse families
  have inside : Bracketed env (frame.depth + Int64.ofNat (8 * (frame.inUseOf families).length)) none 0
      (fun fam => frame.mayChange [res] fam ∨
        ∃ r ∈ frame.inUseOf families, fam = r.family) code := by
    refine quiet.bracketed fun fam mem => ?_
    rcases covered fam mem with rfl | kept
    · exact .inl (Frame.mayChange_result (by simp))
    · cases used : frame.inUse fam with
      | false => exact .inl (.inl used)
      | true => exact .inr ⟨⟨fam, 8⟩, by simp [Frame.inUseOf, kept, used], rfl⟩
  refine Bracketed.savedAll ?_ (by omega) inside
  intro r mem
  obtain ⟨fam, saved, rfl⟩ := List.mem_map.mp mem
  exact ord fam (List.mem_filter.mp saved).1

/-- The code of an operator: quiet lines that change its result. Families that instructions overwrite
are saved around them. -/
inductive Applied (frame : Frame) (result : Family) : Code → Prop
  | quiet {code : Code} (quiet : Quiet [result, Register.scratch.family] code) :
    Applied frame result code
  | saved {families written : List Family} {code : Code}
    (listed : ∀ family ∈ families, family ∈ ([.rax, .rcx, .rdx] : List Family))
    (few : families.length ≤ 2) (quiet : Quiet written code)
    (covered : ∀ family ∈ written, family = result ∨ family ∈ families) :
    Applied frame result
      (saveCode (frame.inUseOf families) ++ code ++ restoreCode (frame.inUseOf families))
  | append {first second : Code} (before : Applied frame result first)
    (after : Applied frame result second) : Applied frame result (first ++ second)

theorem accumulator_applied
    (divides : oper.mnemonic = .mul ∨ oper.mnemonic = .div ∨ oper.mnemonic = .idiv)
    (ord : work.family.isOrdinary = true) :
    Applied frame work.family (frame.accumulatorCode oper work opnd) := by
  have stage : Applied frame work.family [accumulatorStaging oper work opnd] :=
    .quiet ((accumulatorStaging_quiet oper work opnd).mono (by simp))
  refine stage.append (.saved ?_ ?_ (accumulatorBody_quiet divides ord) ?_)
  · intro fam mem
    have listed := (List.mem_filter.mp mem).1
    simp only [List.mem_cons, List.not_mem_nil, or_false] at listed
    rcases listed with rfl | rfl <;> simp
  · exact List.length_filter_le (· != work.family) ([.rax, .rdx] : List Family)
  · intro fam mem
    by_cases same : fam = work.family
    · exact .inl same
    · refine .inr (List.mem_filter.mpr ⟨?_, by simpa using same⟩)
      simpa [same] using mem

theorem shift_applied (plain : mn ≠ .xchg) (ord : work.family.isOrdinary = true) :
    Applied frame work.family (frame.shiftCode mn work opnd) := by
  have stage : Applied frame work.family [shiftStaging work opnd] :=
    .quiet (.binary (by decide) rfl (by simp))
  unfold Frame.shiftCode
  split
  · exact .quiet (.binary plain ord (by simp))
  · split
    · rename_i exchanged
      have same : work.family = .rcx := by simpa using exchanged
      refine stage.append (.quiet (.cons ?_ (.cons ?_ ?_)))
      · intro line listed
        obtain rfl := List.mem_singleton.mp listed
        exact ⟨rfl, by simp [Line.writes, same]⟩
      · exact .binary plain rfl (by simp)
      · exact .binary (by decide) ord (by simp)
    · have shifting : Quiet [work.family, .rcx] (shiftBody mn work) :=
        .cons (.binary (by decide) rfl (by simp)) (.binary plain ord (by simp))
      exact stage.append (.saved (by simp) (by simp) shifting (by simp))

theorem applied_applied (lawful : oper.isLawful = true) (works : work.family.isOrdinary = true)
    (targets : dst.family.isOrdinary = true) :
    Applied frame (frame.applied oper work dst opnd).2.family
      (frame.applied oper work dst opnd).1 := by
  unfold Operation.isLawful at lawful
  unfold Frame.applied
  cases kind : oper.family with
  | arith | logical | floatArith =>
    simp only [kind, bne_iff_ne] at lawful
    exact .quiet (applyDirect_quiet opnd lawful works)
  | mul => exact .quiet (applyMul_quiet opnd works)
  | unsignedMul =>
    simp only [kind, beq_iff_eq] at lawful
    exact accumulator_applied (.inl lawful) works
  | div | rem =>
    simp only [kind, Bool.or_eq_true, beq_iff_eq] at lawful
    exact accumulator_applied (.inr lawful) works
  | shift =>
    simp only [kind, bne_iff_ne] at lawful
    exact shift_applied lawful works
  | compare | floatCompare =>
    simp only [kind, Bool.and_eq_true] at lawful
    obtain ⟨tests, sets⟩ := lawful
    refine .append (.quiet ((applyDirect_test_quiet opnd tests works).mono (by simp))) (.quiet ?_)
    cases cond : oper.condition with
    | none => simp [cond] at sets
    | some setter =>
      simp only [cond, Option.any_some] at sets
      refine .unary ?_ targets ?_
      · cases setter <;> simp_all [Mnemonic.isSetter, Mnemonic.isUnaryComputation]
      · cases setter <;> simp_all [Mnemonic.isSetter, Line.writes]

theorem Applied.bracketed (applied : Applied frame res code) (fits : 16 ≤ weight) :
    Bracketed env frame.depth none weight (frame.mayChange [res]) code := by
  induction applied with
  | quiet quiet =>
    refine quiet.bracketed fun fam mem => ?_
    simp only [List.mem_cons, List.not_mem_nil, or_false] at mem
    rcases mem with rfl | rfl
    · exact Frame.mayChange_result (by simp)
    · exact .inr (.inl (by simp [scratchFamilies]))
  | saved listed few quiet covered =>
    refine inUseOf_bracketed (fun fam mem => ?_) (by omega) quiet covered
    have ord : ∀ fam ∈ ([.rax, .rcx, .rdx] : List Family), fam.isOrdinary = true := by
      decide
    exact ord fam (listed fam mem)
  | append _ _ before after => exact before.append after

/-- An operator changes the register of its result, and others only if no caller relies on them. -/
theorem Applied.callFree (applied : Applied frame res code)
    (spared : ∀ fam, fam.isCalleeSaved = false → changes fam) (changed : changes res) :
    CallFree changes code := by
  induction applied with
  | quiet quiet => exact quiet.callFree (by simpa using ⟨changed, spared _ rfl⟩)
  | @saved families _ _ listed _ quiet covered =>
    have free : ∀ fam ∈ ([.rax, .rcx, .rdx] : List Family), fam.isCalleeSaved = false := by
      decide
    have saved : ∀ r ∈ frame.inUseOf families, changes r.family := by
      intro r mem
      obtain ⟨fam, kept, rfl⟩ := List.mem_map.mp mem
      exact spared fam (free fam (listed fam (List.mem_filter.mp kept).1))
    refine .append (.append (saveCode_callFree (spared _ rfl) saved) ?_)
      (restoreCode_callFree (spared _ rfl) saved)
    refine quiet.callFree fun fam mem => ?_
    rcases covered fam mem with rfl | kept
    · exact changed
    · exact spared fam (free fam (listed fam kept))
  | append _ _ before after => exact before.append after

theorem applied_result : (frame.applied oper work dst opnd).2.family = work.family ∨
    (frame.applied oper work dst opnd).2.family = dst.family := by
  unfold Frame.applied
  cases oper.family <;> simp

end

theorem apply_register (run : Yields (apply pos oper work dst opnd) env frame applied next) :
    applied.2.family = work.family ∨ applied.2.family = dst.family := by
  obtain ⟨_, rfl, _⟩ := yields_apply.mp run
  exact applied_result

theorem Frame.Sends.applied {pos : Position} {oper : Operation} {work dst : Register}
    {opnd : Operand} {applied : Code × Register} {results : List Family} {code : Code}
    (sends : frame.Sends env weight results [] calls code before) (lawful : oper.isLawful = true)
    (works : work.family.isOrdinary = true) (targets : dst.family.isOrdinary = true)
    (fits : 16 ≤ weight) (permits : frame.Permits before results applied.2.family)
    (run : Yields (apply pos oper work dst opnd) env before applied next) :
    frame.Sends env weight results [] calls (code ++ applied.1) next ∧
      Notes before.touched next.touched := by
  obtain ⟨_, rfl, rfl⟩ := yields_apply.mp run
  have kept : frame.Kept before := sends.grown
  have applied : Applied before _ (before.applied oper work dst opnd).1 :=
    applied_applied lawful works targets
  refine ⟨⟨kept.balanced _, sends.ordinary, sends.bracketed.append ?_,
    sends.accounts.ending (applied.callFree (fun _ => .of_not_saved) permits.2)⟩, .refl _⟩
  exact (applied.bracketed fits).widen kept.depth kept.covers (Nat.le_refl _) (by simpa using permits.1)

/-- An operator whose operands emit bracketed code that is accounted for. -/
structure Pending.Orderly (pending : Pending) (env : Env) (left right : Nat)
    (calls more : List (Option String)) : Prop where
  left : pending.left.Orderly env left calls
  right : pending.right.Orderly env right more
  lawful : pending.operation.isLawful = true
  work : pending.work.family.isOrdinary = true
  target : pending.target.family.isOrdinary = true

/-- What a strategy gives for an operator whose left operand goes into `work`. -/
def Frame.Computes (frame : Frame) (env : Env) (weight : Nat) (pending : Pending)
    (calls : List (Option String)) (fragment : Lowered) (next : Frame) : Prop :=
  ∃ code register, fragment = .value code register ∧
    (register.family = pending.work.family ∨ register.family = pending.target.family) ∧
    frame.Sends env weight [pending.work.family, register.family] [] calls code next

/-- A spare register of a class is one that nothing relies on, or a scratch register. -/
structure Frame.Spare (frame : Frame) (isFloat : Bool) (register : Register) : Prop where
  ordinary : register.family.isOrdinary = true
  isFloat : register.isFloat = isFloat
  idle : frame.inUse register.family = false ∨ register.family ∈ scratchFamilies

theorem Frame.Spare.changes {isFloat : Bool} {r : Register} {results : List Family}
    {inner : Frame} (spare : inner.Spare isFloat r) (covers : inner.Covers frame) :
    frame.mayChange results r.family :=
  spare.idle.elim (fun unused => .inl (covers.unused unused)) fun scratch => .inr (.inl scratch)

theorem scratchFor_spare (run : Yields (scratchFor isFloat size) env frame r next) :
    (frame.Kept next ∧ Notes frame.touched next.touched) ∧ frame.Spare isFloat r ∧
      Excused next.touched [] r.family := by
  unfold scratchFor at run
  split at run
  · simp only [yields_bind, yields_touch, yields_pure] at run
    obtain ⟨_, _, rfl, rfl, rfl⟩ := run
    exact ⟨⟨(Frame.Kept.refl _).touch _, .touch _ _⟩,
      ⟨rfl, by simp [*]; rfl, .inr (by simp [scratchFamilies])⟩, .touched _ _⟩
  · simp only [yields_pure] at run
    obtain ⟨rfl, rfl⟩ := run
    exact ⟨⟨.refl _, .refl _⟩, ⟨rfl, by simp [*]; rfl, .inr (by simp [scratchFamilies])⟩,
      .of_not_saved rfl⟩

theorem spareFor_spare (run : Yields (spareFor work) env frame r next) : (frame.Kept next ∧
    Notes frame.touched next.touched) ∧ frame.Spare work.isFloat r := by
  simp only [spareFor, yields_bind, yields_get] at run
  obtain ⟨_, _, ⟨rfl, rfl⟩, run⟩ := run
  split at run
  · rename_i found
    simp only [yields_pure] at run
    obtain ⟨rfl, rfl⟩ := run
    have fresh := Frame.free_fresh found
    exact ⟨⟨.refl _, .refl _⟩, fresh.ordinary, fresh.isFloat, .inl fresh.unused⟩
  · obtain ⟨kept, spare, _⟩ := scratchFor_spare run
    exact ⟨kept, spare⟩

theorem takeSpareFor_spare (run : Yields (takeSpareFor work) env frame r next) :
    (frame.Kept next ∧ Notes frame.touched next.touched) ∧ frame.Spare work.isFloat r ∧
      Excused next.touched [] r.family := by
  simp only [takeSpareFor, yields_bind, yields_acquire?] at run
  obtain ⟨res, _, ⟨found, rfl⟩, run⟩ := run
  cases res with
  | ok free =>
    simp only [yields_pure] at run
    obtain ⟨rfl, rfl⟩ := run
    have fresh := Frame.free_fresh found
    exact ⟨⟨(Frame.Kept.refl _).touch _, .touch _ _⟩,
      ⟨fresh.ordinary, fresh.isFloat, .inl fresh.unused⟩, .touched _ _⟩
  | error error => exact scratchFor_spare run

/-- A leaf that may use a second register, which is noted when there is code that does. -/
theorem Frame.Sends.then_leaf {node : Lowering} {second : Register} {right : Lowered}
    {mid after : Frame} (sends : frame.Sends env weight results extra calls code mid)
    (orderly : node.Orderly env bound more) (fits : bound ≤ weight)
    (usable : second.family.isOrdinary = true) (changes : frame.mayChange results second.family)
    (run : Yields node.value env (mid.push second) right after) (shaped : right.shape ≠ .effect) :
    frame.Sends env weight results extra (calls ++ more) (code ++ right.code)
      (after.touchFor right second).pop := by
  have gives := orderly.value (sends.ordinary.push usable) run
  cases right with
  | inline opnd =>
    obtain rfl : [] = more := gives.accounts.callees
    have nothing : code ++ (Fragment.inline opnd : Lowered).code = code := List.append_nil code
    rw [List.append_nil, nothing]
    exact sends.silent gives.kept.pop gives.accounts.notes
  | value lines r =>
    have evaluates := (((gives.sends (sends.ordinary.push usable) rfl rfl).touch
      second.family).under_push sends.ordinary)
    exact sends.inside evaluates fits (by simpa using ⟨changes, .touched after second.family⟩)
  | effect lines => exact absurd rfl shaped

section

variable {pending : Pending} {frag : Lowered} {left right : Nat}

theorem Pending.Orderly.start (weight : Nat) (orderly : pending.Orderly env left right calls more)
    (ord : frame.Ordinary) : frame.Sends env weight [pending.work.family] [pending.work] [] []
    (frame.push pending.work) := (Frame.Sends.nil ord).push orderly.work

theorem apply_computes {opnd : Operand} {applied : Code × Register} {evaluation : Code}
    {total : List (Option String)} (orderly : pending.Orderly env left right calls more)
    (fits : 16 ≤ weight)
    (evaluated : frame.Sends env weight [pending.work.family] [] total evaluation before)
    (run : Yields (apply pending.position pending.operation pending.work pending.target opnd) env
      before applied next) :
    frame.Computes env weight pending total (.value (evaluation ++ applied.1) applied.2) next := by
  have widened : frame.Sends env weight [pending.work.family, applied.2.family] [] total evaluation
      before :=
    evaluated.widen fun fam mem => .result (by simp [List.mem_singleton.mp mem])
  exact ⟨_, _, rfl, apply_register run, (widened.applied orderly.lawful orderly.work orderly.target fits
    (.result (by simp)) run).1⟩

section

variable (orderly : pending.Orderly env left right calls more) (fits : left + right + 16 ≤ weight)
  (ord : frame.Ordinary)

include orderly fits ord

theorem leftThenLeaf_computes (run : Yields (leftThenLeaf pending) env frame frag next) :
    frame.Computes env weight pending (calls ++ more) frag next := by
  obtain ⟨second, start, chosen, leftCode, mid, lefts, opnd, after, rights, shaped, applied,
    applies, rfl⟩ := yields_leftThenLeaf.mp run
  obtain ⟨⟨kept, notes⟩, spare⟩ := spareFor_spare chosen
  obtain ⟨evaluation, _⟩ := orderly.left.then_into ((orderly.start weight ord).silent kept notes)
    (by omega) lefts orderly.work (.result (by simp))
  have both := evaluation.then_leaf orderly.right (by omega) spare.ordinary
    (spare.changes ((Frame.Covers.refl frame).push _)) rights shaped
  exact apply_computes orderly (by omega) both.pop applies

theorem spill_computes (run : Yields (spill pending) env frame frag next) :
    frame.Computes env weight pending (calls ++ more) frag next := by
  obtain ⟨leftCode, mid, lefts, rightCode, after, rights, second, spared, taken, applied,
    applies, rfl⟩ := yields_spill.mp run
  obtain ⟨evaluation, _⟩ := orderly.left.then_into (orderly.start weight ord) (by omega) lefts
    orderly.work (.result (by simp))
  have parked : (mid.saved 1).Ordinary := evaluation.ordinary
  have evaluates := orderly.right.into_sends parked rights orderly.work
  obtain ⟨⟨taking, notes⟩, spare, noted⟩ := takeSpareFor_spare taken
  have restored : frame.Kept (spared.restored 2).pop := by
    have inner : (mid.saved 1).Kept (spared.restored 1) :=
      evaluates.grown.trans taking.restored
    have outer : mid.Kept (spared.restored 2) := by
      rw [← Frame.restored_restored spared 1 1]
      exact inner.restored
    exact (evaluation.grown.trans outer).pop
  have covers : after.Covers frame := evaluates.grown.covers.trans evaluation.grown.covers
  -- While the left operand is parked its register is free for the right one.
  have exchange : Bracketed env frame.depth none weight (frame.mayChange [pending.work.family])
      (pushCode pending.work ++ (zero pending.work ++ rightCode ++
        (pushCode pending.work ++ popCode second)) ++ popCode pending.work) := by
    have depth : (mid.saved 1).depth = frame.depth + 8 := by
      simp [Frame.saved, evaluation.grown.depth]
    refine .saved orderly.work (by omega : right + 8 + 8 ≤ weight)
      (Bracketed.append (Bracketed.append ?_ ?_) ?_)
    · refine (zero_quiet orderly.work).bracketed fun fam mem => ?_
      obtain rfl := List.mem_singleton.mp mem
      exact .inr rfl
    · have right := evaluates.bracketed
      rw [depth] at right
      refine right.mono (by omega) fun fam changed => .inl ?_
      exact Frame.mayChange_mono evaluation.grown.covers (fun _ => Frame.mayChange_result) changed
    · exact .moved spare.ordinary spare.isFloat.symm (by omega) (.inl (spare.changes covers))
  have accounts : Accounts frame.touched [pending.work.family] (calls ++ more)
      (spillCode pending.work second leftCode rightCode) spared.touched := by
    have stack : ∀ {noted}, Excused noted [pending.work.family] .rsp := .of_not_saved rfl
    have works : ∀ {noted}, Excused noted [pending.work.family] pending.work.family :=
      .result (by simp)
    have zeroed := evaluation.accounts.ending (pushCode_callFree stack works) |>.ending
      ((zero_quiet orderly.work).callFree fun _ => .result)
    exact (zeroed.append evaluates.accounts).then_notes notes |>.ending
      (pushCode_callFree stack works) |>.ending
      (popCode_callFree stack (noted.mono (fun _ => id) (by simp))) |>.ending
      (popCode_callFree stack works)
  have shape : spillCode pending.work second leftCode rightCode = leftCode ++
      (pushCode pending.work ++ (zero pending.work ++ rightCode ++
        (pushCode pending.work ++ popCode second)) ++ popCode pending.work) := by
    simp [spillCode]
  have spills : frame.Sends env weight [pending.work.family] [] (calls ++ more)
      (spillCode pending.work second leftCode rightCode) (spared.restored 2).pop :=
    ⟨restored, ord.kept restored, shape ▸ evaluation.bracketed.append exchange, accounts⟩
  exact apply_computes orderly (by omega) spills applies

theorem leafThenComposite_computes (run : Yields (leafThenComposite pending) env frame frag next) :
    frame.Computes env weight pending (calls ++ more) frag next := by
  rcases yields_leafThenComposite.mp run with ⟨_, _, spilled⟩ | ⟨second, found, leftCode, mid,
    lefts, rightCode, after, rights, applied, applies, rfl⟩
  · exact spill_computes orderly fits ord spilled
  · have fresh := Frame.free_fresh found
    have unused : frame.inUse second.family = false :=
      ((Frame.Covers.refl frame).push _).unused fresh.unused
    obtain ⟨evaluation, notes⟩ := orderly.left.then_into
      ((orderly.start weight ord).touch second.family) (by omega) lefts orderly.work
      (.result (by simp))
    obtain ⟨both, _⟩ := orderly.right.then_into (evaluation.push fresh.ordinary) (by omega) rights
      fresh.ordinary ((Frame.Permits.fresh unused).later notes)
    exact apply_computes orderly (by omega) both.pop.pop applies

end

theorem takeMany_none (taken : Frame.takeMany isFloat size count frame = (none, next)) :
    frame.Kept next ∧ Notes frame.touched next.touched := by
  induction count generalizing frame next with
  | zero => cases taken
  | succ count ih =>
    simp only [Frame.takeMany] at taken
    split at taken
    · cases taken
      exact ⟨.refl _, .refl _⟩
    · split at taken
      · cases taken
      · rename_i r _ _ after rest
        cases taken
        obtain ⟨kept, notes⟩ := ih rest
        exact ⟨(((Frame.Kept.refl frame).touch r.family).push r).trans kept |>.pop,
          (Notes.touch frame r.family).trans notes⟩

theorem takeMany_some (taken : Frame.takeMany isFloat size count frame = (some registers, next)) :
    Frame.Grown registers.reverse frame next ∧ Notes frame.touched next.touched ∧ ∀ r ∈ registers,
    r.family.isOrdinary = true ∧ ∀ {results}, frame.Permits next results r.family := by
  induction count generalizing frame registers with
  | zero =>
    cases taken
    exact ⟨Frame.Kept.refl _, .refl _, by simp⟩
  | succ count ih =>
    simp only [Frame.takeMany] at taken
    split at taken
    · cases taken
    · rename_i r found
      split at taken
      · rename_i rest after inner
        cases taken
        have fresh := Frame.free_fresh found
        have first : Frame.Grown [r] frame ((frame.touch r.family).push r) :=
          ((Frame.Kept.refl frame).touch r.family).push r
        obtain ⟨grown, notes, others⟩ := ih inner
        refine ⟨by simpa using first.trans grown, (Notes.touch frame r.family).trans notes, ?_⟩
        intro other mem
        rcases List.mem_cons.mp mem with rfl | mem
        · exact ⟨fresh.ordinary, (Frame.Permits.fresh fresh.unused).later notes⟩
        · obtain ⟨ord, permits⟩ := others other mem
          exact ⟨ord, permits.outside first.covers fun _ => .result⟩
      · cases taken

structure FourLeaves.Orderly (leaves : FourLeaves) (env : Env) (left right : Nat)
    (one two three four : List (Option String)) : Prop where
  first : leaves.first.Orderly env left one
  second : leaves.second.Orderly env left two
  third : leaves.third.Orderly env right three
  fourth : leaves.fourth.Orderly env right four

theorem simpleOperations?_lawful
    (found : simpleOperations? work leaves = some (leftOperation, rightOperation)) :
    leftOperation.isLawful = true ∧ rightOperation.isLawful = true := by
  unfold simpleOperations? at found
  split at found
  · split at found
    · rename_i lefts rights
      split at found
      · cases found
        exact ⟨Operation.ofTypes_lawful lefts, Operation.ofTypes_lawful rights⟩
      · cases found
    · cases found
  · cases found

theorem fourRegisters_computes {leaves : FourLeaves} {leftOperation rightOperation : Operation}
    (orderly : pending.Orderly env left right calls more)
    (leafs : leaves.Orderly env left right one two three four)
    (lawful : leftOperation.isLawful = true ∧ rightOperation.isLawful = true)
    (fits : left + right + 16 ≤ weight) (ord : frame.Ordinary)
    (run : FourRegisters env frame pending leaves leftOperation rightOperation frag next) :
    frame.Computes env weight pending (one ++ two ++ (three ++ four)) frag next := by
  obtain ⟨second, third, fourth, start, taken, firstCode, afterFirst, firsts, secondCode,
    afterSecond, seconds, thirdCode, afterThird, thirds, fourthCode, afterFourth, fourths, leftPart,
    afterLeft, lefts, rightPart, afterRight, rights, applied, applies, rfl⟩ := run
  obtain ⟨grown, notes, fresh⟩ := takeMany_some taken
  have idle : ∀ r ∈ [second, third, fourth], r.family.isOrdinary = true ∧
      frame.Permits start [pending.work.family] r.family := fun r mem =>
    ⟨(fresh r mem).1, (fresh r mem).2.outside
      ((Frame.Covers.refl frame).push pending.work) fun _ => .result⟩
  have whole : Frame.Grown [fourth, third, second, pending.work] frame start :=
    ((Frame.Kept.refl frame).push pending.work).trans (by simpa using grown)
  have held : start.Ordinary := by
    intro r mem
    rw [whole.held] at mem
    simp only [List.cons_append, List.nil_append, List.mem_cons] at mem
    rcases mem with rfl | rfl | rfl | rfl | mem
    · exact (idle _ (by simp)).1
    · exact (idle _ (by simp)).1
    · exact (idle _ (by simp)).1
    · exact orderly.work
    · exact ord r mem
  have started : frame.Sends env weight [pending.work.family]
      [fourth, third, second, pending.work] [] [] start := ⟨whole, held, .nil, .nil notes⟩
  have leftFits : left ≤ weight := by omega
  have rightFits : right ≤ weight := by omega
  have enough : 16 ≤ weight := by omega
  have working : ∀ {after}, frame.Permits after [pending.work.family] pending.work.family :=
    .result (by simp)
  obtain ⟨first, noted⟩ := leafs.first.then_into started leftFits firsts orderly.work working
  have usable := idle second (by simp)
  obtain ⟨both, later⟩ := leafs.second.then_into first leftFits seconds usable.1 (usable.2.later noted)
  have thirdIdle := idle third (by simp)
  obtain ⟨triple, last⟩ := leafs.third.then_into both rightFits thirds thirdIdle.1
    (thirdIdle.2.later (noted.trans later))
  have fourthIdle := idle fourth (by simp)
  have notes := (noted.trans later).trans last
  obtain ⟨all, finish⟩ := leafs.fourth.then_into triple rightFits fourths fourthIdle.1
    (fourthIdle.2.later notes)
  obtain ⟨leftward, applying⟩ := all.pop.pop.pop.pop.applied lawful.1 orderly.work orderly.work enough
    (by rw [(apply_register lefts).elim id id]; exact working) lefts
  have thirdPermits := thirdIdle.2.later ((notes.trans finish).trans applying)
  obtain ⟨rightward, _⟩ := leftward.applied lawful.2 thirdIdle.1 thirdIdle.1 enough
    (by rw [(apply_register rights).elim id id]; exact thirdPermits) rights
  have whole := apply_computes orderly enough rightward applies
  simp only [List.append_assoc] at whole ⊢
  exact whole

theorem lowerPending_computes (orderly : pending.Orderly env left right calls more)
    (leafs : ∀ four, leaves = some four →
      ∃ one two three last, four.Orderly env left right one two three last ∧ one ++ two = calls ∧
      three ++ last = more)
    (fits : left + right + 16 ≤ weight) (ord : frame.Ordinary)
    (run : Yields (lowerPending pending leaves) env frame frag next) :
    frame.Computes env weight pending (calls ++ more) frag next := by
  rcases yields_lowerPending.mp run with ⟨_, leaf⟩ | ⟨_, _, composite⟩ | ⟨_, _, ⟨_, spilled⟩ |
    ⟨four, _, given, res, mid, fast, outcome⟩⟩
  · exact leftThenLeaf_computes orderly fits ord leaf
  · exact leafThenComposite_computes orderly fits ord composite
  · exact spill_computes orderly fits ord spilled
  · obtain ⟨one, two, three, last, each, rfl, rfl⟩ := leafs four given
    rcases yields_fastPath?.mp fast with ⟨_, rfl, rfl⟩ | ⟨leftOperation, rightOperation, found,
      ⟨start, taken, rfl, rfl⟩ | ⟨found', rfl, registers⟩⟩
    · rcases outcome with ⟨⟨⟩, _⟩ | ⟨_, spilled⟩
      exact spill_computes orderly fits ord spilled
    · rcases outcome with ⟨⟨⟩, _⟩ | ⟨_, spilled⟩
      obtain ⟨taking, notes⟩ := takeMany_none taken
      have kept : frame.Kept start.pop := Frame.Kept.pop taking
      obtain ⟨code, r, rfl, place, sends⟩ := spill_computes orderly fits (ord.kept kept)
        spilled
      exact ⟨code, r, rfl, place, .of_kept kept notes sends⟩
    · rcases outcome with ⟨same, rfl⟩ | ⟨⟨⟩, _⟩
      cases same
      exact fourRegisters_computes orderly each (simpleOperations?_lawful found) fits ord registers

theorem lowerBinary_orderly (lefts : first.Orderly env left calls)
    (rights : second.Orderly env right more)
    (leafs : ∀ four, leaves () = some four →
      ∃ one two three last, four.Orderly env left right one two three last ∧ one ++ two = calls ∧
      three ++ last = more)
    (fits : left + right + 16 ≤ weight) :
    Orderly env weight (calls ++ more) (lowerBinary pos op first second leaves) :=
    by
  intro frame frag next ord run
  obtain ⟨_, _, oper, found, dst, start, given, work, mid, works, after, computed, rfl⟩ :=
    yields_lowerBinary.mp run
  have chosen := destination_chosen ord given
  have started := ord.kept chosen.kept
  have usable := chosen.receives.ordinary
  obtain ⟨worked, accepts⟩ := workFor_accepts weight [] (started.hold usable) usable works
  obtain ⟨code, r, rfl, res, sends⟩ := lowerPending_computes
    ⟨lefts, rights, Operation.ofTypes_lawful found, accepts.ordinary, usable⟩ leafs fits
    worked.ordinary computed
  have accepted : start.Accepts after dst work :=
    accepts.outside ((Frame.Covers.refl start).hold dst) sends.accounts.notes
  have received : start.Accepts after dst r := by
    rcases res with same | same
    · exact ⟨same ▸ accepted.ordinary, same ▸ accepted.place⟩
    · exact ⟨same ▸ usable, .inl same⟩
  have outer := (worked.widen (by simp)).inside sends (Nat.le_refl _) fun _ => .result
  refine chosen.gives (outer.unhold started fun fam mem => ?_)
    (received.outside (.refl _) (.of_eq Frame.unhold_touched))
  rcases List.mem_cons.mp mem with rfl | mem
  · rcases res with same | same
    · exact .result (by simp [same])
    · have permits := accepted.permits
      rwa [← same] at permits
  · exact .result mem

end

end Nasm64.Lower
