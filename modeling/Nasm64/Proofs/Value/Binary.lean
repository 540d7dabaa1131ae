import Nasm64.Proofs.Value.Node

/-! The strategies for binary operators compute the operator on the values of its operands. -/
namespace Nasm64

open Lower

def Meaning.join (compute : BitVec 64 → BitVec 64 → Option (BitVec 64)) (lefts rights : Meaning) :
    Meaning := fun machine => do
  let left ← lefts machine
  let right ← rights machine
  compute left right

theorem Meaning.join_eq_some : Meaning.join compute lefts rights m = some result ↔ ∃ left, lefts m =
    some left ∧ ∃ right, rights m = some right ∧ compute left right = some result := by
  simp [Meaning.join, Option.bind_eq_some_iff]

namespace Register

theorem not_scratch {float : Bool} {fam : Family} (pooled : fam ∈ poolFamilies float) :
    fam ∉ scratchFamilies := by
  cases float <;> revert pooled fam <;> decide

theorem not_staging {float : Bool} {fam : Family} (pooled : fam ∈ poolFamilies float) :
    fam ≠ staging float := by
  rintro rfl
  refine not_scratch pooled ?_
  cases float <;> decide

end Register

namespace Machine

variable {w : World} {m : Machine} {work second : Register}

/-- A register is parked on the stack while code computes in it, and both values are there
afterwards. -/
theorem parked_runs (working : work.Working float) (spare : second.Working float)
    (width : second.size = work.size) (apart : second.family ≠ work.family) (fits : 16 ≤ m.room)
    (runs : ∀ parked : Machine, m.Within parked → parked.room = m.room - 8 →
      ∃ after, parked.run w inside = some after ∧ parked.Within after ∧
      after.reg .rsp = parked.reg .rsp ∧ after.view work = value) :
    ∃ after, m.run w (pushCode work ++ inside ++ pushCode work ++ popCode second ++ popCode work) =
        some after ∧ after.room = m.room ∧ after.view work = m.view work ∧
      after.view second = value := by
  obtain ⟨parked, pushRan, pushed⟩ := push_runs w m working (by omega)
  obtain ⟨computed, insideRan, within, level, view⟩ := runs parked (.of_pushed pushed) pushed.room
  have room : computed.room = parked.room := by rw [Machine.room, Machine.room, level, within.floor]
  obtain ⟨swapping, swapRan, swapped⟩ := push_runs w computed working
    (by rw [room, pushed.room]; omega)
  obtain ⟨swappedBack, rightRan, right⟩ := pop_runs w swapping spare
  obtain ⟨after, leftRan, left⟩ := pop_runs w swappedBack working
  have middle : swappedBack.reg .rsp = parked.reg .rsp := by
    rw [right.stack, swapped.stack, level, BitVec.sub_add_cancel]
  have stack : after.reg .rsp = m.reg .rsp := by
    rw [left.stack, middle, pushed.stack, BitVec.sub_add_cancel]
  have floor : after.floor = m.floor := by
    rw [left.floor, right.floor, swapped.floor, within.floor, pushed.floor]
  have saved : swapping.memory.load (parked.reg .rsp) 8 = m.reg work.family := by
    refine pushed.load fun byte _ outside => ?_
    have clear : ¬ computed.isBelow (computed.reg .rsp) byte :=
      fun below => outside (within.isBelow below)
    rw [swapped.memory_apart clear, within.memory byte outside]
  refine ⟨after, run_join (run_join (run_join (run_join pushRan insideRan) swapRan) rightRan) leftRan,
    by rw [Machine.room, Machine.room, stack, floor], ?_, ?_⟩
  · rw [Machine.view, left.restored, right.memory, middle, saved, Machine.view]
  · rw [Machine.view, left.registers _ spare.aside apart, right.restored,
      swapped.load fun _ _ _ => rfl, width, ← view, Machine.view]

end Machine

namespace Lower

variable {env : Env} {ground : Ground} {frame next : Frame} {scope : List (String × Variable)}
  {weight : Nat}

section

variable {operation : Operation} {work target : Register} {operand : Operand}

def resultOf (operation : Operation) (work target : Register) : Register :=
  if compares operation then target.resize 1 else work

theorem applied_register :
    (frame.applied operation work target operand).2 = resultOf operation work target := by
  unfold Frame.applied resultOf compares
  cases operation.family <;> rfl

theorem pushCode_plain (r : Register) : (pushCode r).IsPlain := by
  unfold pushCode
  split
  · exact .cons rfl (.singleton rfl)
  · exact .singleton rfl

theorem popCode_plain (r : Register) : (popCode r).IsPlain := by
  unfold popCode
  split
  · exact .cons rfl (.singleton rfl)
  · exact .singleton rfl

theorem saved_plain (plain : body.IsPlain) :
    (saveCode saved ++ body ++ restoreCode saved).IsPlain := by
  refine .append (.append ?_ plain) ?_
  · intro line mem
    obtain ⟨_, listed, inside⟩ := List.mem_flatten.mp mem
    obtain ⟨r, _, rfl⟩ := List.mem_map.mp listed
    exact pushCode_plain r line inside
  · intro line mem
    obtain ⟨_, listed, inside⟩ := List.mem_flatten.mp mem
    obtain ⟨r, _, rfl⟩ := List.mem_map.mp listed
    exact popCode_plain r line inside

theorem applyDirect_plain : (applyDirect mn work operand).IsPlain := by
  have stage : (encoded operand work.size).1.IsPlain := by
    unfold encoded
    split
    · exact .nil
    · exact .singleton rfl
  exact stage.append (.singleton rfl)

theorem applyMul_plain : (applyMul work operand).IsPlain := by
  unfold applyMul
  split
  · exact applyDirect_plain
  · split
    · exact .cons rfl (.singleton rfl)
    · exact .cons rfl (.cons rfl (.singleton rfl))

theorem accumulatorBody_plain (computes : operation.mnemonic ≠ .call) :
    (accumulatorBody operation work).IsPlain := by
  have loading : (accumulatorLoading operation work).IsPlain := by
    unfold accumulatorLoading
    split
    · exact .singleton rfl
    · split
      · exact .singleton rfl
      · exact .nil
  have extension : (accumulatorExtension operation work).IsPlain := by
    unfold accumulatorExtension
    split
    · exact .nil
    · split <;> exact .singleton rfl
  have storing : (accumulatorStoring operation work).IsPlain := by
    unfold accumulatorStoring
    dsimp only
    split
    · exact .nil
    · exact .singleton rfl
  refine ((loading.append extension).append (.singleton ?_)).append storing
  unfold Line.isPlain
  split
  · rename_i same
    exact absurd (Line.unary.inj same).1 computes
  · rfl

theorem applied_plain (lawful : operation.isLawful = true) :
    (frame.applied operation work target operand).1.IsPlain := by
  have acc (computes : operation.mnemonic ≠ .call) : (frame.accumulatorCode operation work operand).IsPlain := by
    refine .cons ?_ (saved_plain (accumulatorBody_plain computes))
    unfold accumulatorStaging
    split <;> rfl
  have shift : (frame.shiftCode operation.mnemonic work operand).IsPlain := by
    unfold Frame.shiftCode
    split
    · exact .singleton rfl
    · split
      · exact .cons rfl (.cons rfl (.cons rfl (.singleton rfl)))
      · exact .cons rfl (saved_plain (.cons rfl (.singleton rfl)))
  have compare (tests : (operation.mnemonic.isTest && operation.condition.any Mnemonic.isSetter) = true) :
      Code.IsPlain (applyDirect operation.mnemonic work operand ++
        [.unary (operation.condition.getD .sete) (.reg (target.resize 1))]) := by
    refine .append applyDirect_plain (.singleton ?_)
    obtain ⟨setter, same, sets⟩ := (Option.any_eq_true _ _).mp (Bool.and_eq_true_iff.mp tests).2
    rw [same, Option.getD_some]
    cases setter <;> first | rfl | cases sets
  unfold Operation.isLawful at lawful
  unfold Frame.applied
  cases known : operation.family <;> simp only [known] at lawful <;> dsimp only
  case arith | logical | floatArith => exact applyDirect_plain
  case mul => exact applyMul_plain
  case unsignedMul => exact acc (by rw [eq_of_beq lawful]; decide)
  case div | rem =>
    refine acc ?_
    rcases Bool.or_eq_true_iff.mp lawful with same | same <;> rw [eq_of_beq same] <;> decide
  case shift => exact shift
  case compare | floatCompare => exact compare lawful

/-- The code of an operator at some width computes a function of its operands. -/
def Operates (ground : Ground) (operation : Operation) (size : Int)
    (compute : BitVec 64 → BitVec 64 → Option (BitVec 64)) : Prop :=
  ∀ (frame : Frame) {work target : Register} {operand : Operand} {machine : Machine}
    {left right result : BitVec 64}, work.size = size → target.family = work.family →
    machine.Presents ground.float ground.world work operand left right → 16 ≤ machine.room →
    compute left right = some result →
    ∃ after, machine.run ground.world (frame.applied operation work target operand).1 = some after ∧
      after.view (frame.applied operation work target operand).2 = result

end

/-- The second register of an operator: a free one, and the staging register when there is none. -/
inductive Frame.Seconds (frame : Frame) (float : Bool) (size : Int) : Register → Prop
  | free {register : Register} (found : frame.free float size = .ok register) :
    Seconds frame float size register
  | staging {error : Register.Error} (none : frame.free float size = .error error) :
    Seconds frame float size ⟨Register.staging float, size⟩

namespace Frame.Seconds

variable {float : Bool} {size : Int} {r : Register}

section

variable (second : frame.Seconds float size r)

include second

theorem width : r.size = size := by
  cases second with
  | free found => exact (free_fresh found).width
  | staging => rfl

theorem working (supported : Register.inPool float size = true) : r.Working float := by
  cases second with
  | free found =>
    have fresh := free_fresh found
    exact ⟨List.mem_cons_of_mem _ fresh.pooled, fresh.width ▸ supported⟩
  | staging => exact ⟨List.mem_cons_self, supported⟩

theorem apart (used : frame.inUse family = true)
    (pooled : family ∈ Register.poolFamilies float) : r.family ≠ family := by
  cases second with
  | free found =>
    rintro rfl
    rw [(free_fresh found).unused] at used
    cases used
  | staging => exact fun same => Register.not_staging pooled same.symm

end

end Frame.Seconds

theorem scratchFor_yields (env : Env) (frame : Frame) (float : Bool) (size : Int) :
    ∃ next, Yields (scratchFor float size) env frame ⟨Register.staging float, size⟩ next := by
  cases float with
  | false => exact ⟨frame, yields_pure.mpr ⟨rfl, rfl⟩⟩
  | true =>
    exact ⟨frame.touch Register.floatScratch.family,
      yields_bind.mpr ⟨(), _, yields_touch.mpr rfl, yields_pure.mpr ⟨rfl, rfl⟩⟩⟩

theorem spareFor_yields (env : Env) (frame : Frame) (work : Register) :
    ∃ second next, Yields (spareFor work) env frame second next ∧
      frame.Seconds work.isFloat work.size second := by
  simp only [spareFor, yields_bind, yields_get]
  cases found : frame.free work.isFloat work.size with
  | ok r =>
    exact ⟨r, frame, ⟨frame, frame, ⟨rfl, rfl⟩, by simp [found, yields_pure]⟩, .free found⟩
  | error error =>
    obtain ⟨after, run⟩ := scratchFor_yields env frame work.isFloat work.size
    exact ⟨_, after, ⟨frame, frame, ⟨rfl, rfl⟩, by simpa [found] using run⟩, .staging found⟩

theorem takeSpareFor_yields (env : Env) (frame : Frame) (work : Register) :
    ∃ second next, Yields (takeSpareFor work) env frame second next ∧
      frame.Seconds work.isFloat work.size second := by
  simp only [takeSpareFor, yields_bind, yields_acquire?]
  cases found : frame.free work.isFloat work.size with
  | ok r => exact ⟨r, _, ⟨_, _, ⟨rfl, rfl⟩, yields_pure.mpr ⟨rfl, rfl⟩⟩, .free found⟩
  | error error =>
    obtain ⟨after, run⟩ := scratchFor_yields env frame work.isFloat work.size
    exact ⟨_, after, ⟨_, _, ⟨rfl, rfl⟩, run⟩, .staging found⟩

/-- An operator whose operands compute their values, in a register of the pool. -/
structure Pending.Computes (pending : Pending) (env : Env) (ground : Ground)
    (scope : List (String × Variable)) (left right : Nat) (lefts rights : Meaning)
    (first second : List Register → Prop) (compute : BitVec 64 → BitVec 64 → Option (BitVec 64)) :
    Prop where
  left : pending.left.Computes env ground scope left lefts first
  right : pending.right.Computes env ground scope right rights second
  leftWidth : pending.work.size = pending.left.type.registerSize
  rightWidth : pending.work.size = pending.right.type.registerSize
  pooled : pending.work.family ∈ Register.poolFamilies ground.float
  same : pending.target.family = pending.work.family
  lawful : pending.operation.isLawful = true
  general : compares pending.operation = true → ground.float = false
  operates : Operates ground pending.operation pending.work.size compute

/-- Where a strategy leaves the result of an operator. -/
def Pending.result (pending : Pending) : Register :=
  resultOf pending.operation pending.work pending.target

/-- Code that brings the values of two operands to where the operator reads them. -/
def Pending.Presents (pending : Pending) (ground : Ground) (weight : Nat) (lefts rights : Meaning)
    (operand : Operand) (code : Code) : Prop :=
  ∀ (machine : Machine) (left right : BitVec 64), ground.holds machine → weight ≤ machine.room →
    lefts machine = some left → rights machine = some right →
    ∃ middle, machine.run ground.world code = some middle ∧ 16 ≤ middle.room ∧
      middle.Presents ground.float ground.world pending.work operand left right

section

variable {pending : Pending} {left right : Nat} {lefts rights : Meaning}
  {first second : List Register → Prop} {compute : BitVec 64 → BitVec 64 → Option (BitVec 64)}

namespace Pending.Computes

section

variable (computes : pending.Computes env ground scope left right lefts rights first second compute)

include computes

theorem supported : Register.inPool ground.float pending.work.size = true :=
  computes.leftWidth ▸ computes.left.supported

theorem working : pending.work.Working ground.float :=
  ⟨List.mem_cons_of_mem _ computes.pooled, computes.supported⟩

end

/-- The last step of every strategy: operands that evaluation presents are combined. -/
theorem apply_delivers (before : Frame)
    (computes : pending.Computes env ground scope left right lefts rights first second compute)
    (plain : evaluation.IsPlain)
    (presents : pending.Presents ground weight lefts rights operand evaluation) :
    ∃ applied next,
      Yields (apply pending.position pending.operation pending.work pending.target operand) env
        before applied next ∧ Delivers ground weight pending.result.family pending.result.size
        (.join compute lefts rights) (.value (evaluation ++ applied.1) applied.2) := by
  have allowed : compares pending.operation = true → pending.target.isFloat = false := by
    intro comparing
    rw [← computes.general comparing, ← computes.working.isFloat, Register.isFloat, computes.same,
      Register.isFloat]
  refine ⟨_, _, yields_apply.mpr ⟨allowed, rfl, rfl⟩, ?_⟩
  rw [applied_register]
  refine .computed (plain.append (applied_plain computes.lawful)) ?_
  intro m res holds room meant
  obtain ⟨leftValue, leftMeant, rightValue, rightMeant, computed⟩ := Meaning.join_eq_some.mp meant
  obtain ⟨mid, ran, fits, presented⟩ :=
    presents m leftValue rightValue holds room leftMeant rightMeant
  obtain ⟨after, applied, view⟩ := computes.operates before rfl computes.same presented fits computed
  rw [applied_register] at view
  exact ⟨after, Machine.run_join ran applied, view⟩

end Pending.Computes

/-- What is in use and no scratch register stays, but for the result. -/
theorem Frame.not_mayChange (used : frame.inUse family = true)
    (pooled : family ∈ Register.poolFamilies float) (apart : family ≠ result) :
    ¬ frame.mayChange [result] family := by
  rintro (unused | scratch | same)
  · rw [used] at unused
    cases unused
  · exact Register.not_scratch pooled scratch
  · exact apart (List.mem_singleton.mp same)

theorem Frame.inUse_of_mem (mem : r ∈ frame.held) : frame.inUse r.family = true :=
  Frame.inUse_iff.mpr ⟨r, mem, rfl⟩

/-- The second operand is evaluated while the first one waits in its register. -/
theorem Pending.Computes.presents_join
    (computes : pending.Computes env ground scope left right lefts rights first second compute)
    (fits : left + right + 16 ≤ weight)
    (loads : Lowering.Loads start ground left lefts pending.work code mid)
    (reads : operand.Reads pending.work.size pending.work.family ground.float)
    (apart : spare ≠ pending.work.family) (held : pending.work ∈ frame.held)
    (runs : ∀ (m : Machine) (value : BitVec 64), ground.holds m → right ≤ m.room →
      rights m = some value → ∃ after, m.run ground.world rest = some after ∧
      m.Near (frame.mayChange [spare]) after ∧
      after.content ground.float ground.world pending.work.size operand = some value) :
    pending.Presents ground weight lefts rights operand (code ++ rest) := by
  intro m leftValue rightValue holds room leftMeant rightMeant
  obtain ⟨loaded, leftRan, leftNear, leftView⟩ := loads.runs m leftValue holds (by omega) leftMeant
  obtain ⟨final, rightRan, rightNear, content⟩ := runs loaded rightValue
    (ground.steady holds leftNear.within) (by rw [leftNear.room]; omega)
    ((computes.right.fixed holds leftNear.within).trans rightMeant)
  refine ⟨final, Machine.run_join leftRan rightRan, by rw [rightNear.room, leftNear.room]; omega,
    computes.working, Register.not_staging computes.pooled, reads, ?_, content⟩
  rw [rightNear.view (Frame.not_mayChange (Frame.inUse_of_mem held) computes.pooled apart.symm),
    leftView]

/-- A run of an operator on a leaf: code that presents the operands, the second of them as the leaf
gives it, and then the code that combines them. -/
theorem leftThenLeaf_presents (ord : frame.Ordinary) (visible : frame.scope = scope)
    (computes : pending.Computes env ground scope left right lefts rights first second compute)
    (fits : left + right + 16 ≤ weight)
    (admitted : first (pending.work :: pending.work :: frame.held))
    (spared : ∀ r, (frame.push pending.work).Seconds ground.float pending.work.size r →
      second (r :: pending.work :: frame.held)) :
    ∃ evaluation operand before, evaluation.IsPlain ∧
      pending.Presents ground weight lefts rights operand evaluation ∧
      (∃ start leaf after, Yields pending.right.value env start leaf after ∧
        leaf.operand? .reg = some operand) ∧
      ∀ applied next,
      Yields (apply pending.position pending.operation pending.work pending.target operand) env
        before applied next → Yields (leftThenLeaf pending) env frame
        (.value (evaluation ++ applied.1) applied.2) next := by
  have working := computes.working
  obtain ⟨spare, start, chosen, seconds⟩ := spareFor_yields env (frame.push pending.work) pending.work
  have pushed := (spareFor_spare chosen).1.1
  rw [working.isFloat] at seconds
  have spareWorking := seconds.working computes.supported
  have apart : spare.family ≠ pending.work.family :=
    seconds.apart (Frame.inUse_of_mem (by simp)) computes.pooled
  have started := (ord.push working.ordinary).kept pushed
  have held : start.held = pending.work :: frame.held := pushed.held
  obtain ⟨leftCode, mid, leftRun, loads⟩ := computes.left.into_loads start pending.work
    (pushed.scope.trans visible) started (held ▸ admitted) computes.leftWidth
  have middleHeld : mid.held = pending.work :: frame.held := loads.kept.held.trans held
  obtain ⟨leaf, after, rightRun, offers⟩ := computes.right.value_offers
    (mid.push spare) ((loads.kept.scope.trans pushed.scope).trans visible)
    ((started.kept loads.kept).push spareWorking.ordinary) rfl
    (middleHeld ▸ spared spare seconds) apart
  obtain ⟨operand, found, reads, reading⟩ := offers.operand
  rw [← computes.rightWidth] at reads reading
  have presents := computes.presents_join fits loads reads apart (by simp [middleHeld]) reading
  refine ⟨_, operand, (after.touchFor leaf spare).pop.pop, loads.plain.append offers.plain, presents,
    ⟨_, leaf, after, rightRun, found⟩, fun applied next applies => ?_⟩
  exact yields_leftThenLeaf.mpr ⟨spare, start, chosen, leftCode, mid, leftRun, leaf, after,
    rightRun, offers.shaped, applied, by rw [found]; exact applies, rfl⟩

section

variable (ordinary : frame.Ordinary) (visible : frame.scope = scope)
  (computes : pending.Computes env ground scope left right lefts rights first second compute)
  (fits : left + right + 16 ≤ weight)
  (admitted : first (pending.work :: pending.work :: frame.held))

include ordinary visible computes fits admitted

theorem leftThenLeaf_delivers
    (spared : ∀ r, (frame.push pending.work).Seconds ground.float pending.work.size r →
      second (r :: pending.work :: frame.held)) :
    Answers (leftThenLeaf pending) env frame ground weight pending.result
      (.join compute lefts rights) := by
  obtain ⟨evaluation, operand, before, plain, presents, _, runs⟩ :=
    leftThenLeaf_presents ordinary visible computes fits admitted spared
  obtain ⟨applied, next, applies, delivers⟩ := computes.apply_delivers before plain presents
  exact ⟨_, next, runs applied next applies, delivers⟩

theorem spill_delivers (spilled : second (pending.work :: pending.work :: frame.held)) :
    Answers (spill pending) env frame ground weight pending.result
      (.join compute lefts rights) := by
  have working := computes.working
  have started := ordinary.push working.ordinary
  obtain ⟨leftCode, middle, leftRun, leftLoads⟩ := computes.left.into_loads
    (frame.push pending.work) pending.work visible started admitted computes.leftWidth
  have evaluated := started.kept leftLoads.kept
  have middleHeld : (middle.saved 1).held = pending.work :: frame.held := leftLoads.kept.held
  obtain ⟨rightCode, after, rightRun, rightLoads⟩ := computes.right.into_loads
    (middle.saved 1) pending.work (leftLoads.kept.scope.trans visible) evaluated (middleHeld ▸ spilled)
    computes.rightWidth
  have afterHeld : (after.saved 1).held = pending.work :: frame.held :=
    rightLoads.kept.held.trans middleHeld
  obtain ⟨spare, start, chosen, seconds⟩ := takeSpareFor_yields env (after.saved 1) pending.work
  rw [working.isFloat] at seconds
  have spareWorking := seconds.working computes.supported
  have apart : spare.family ≠ pending.work.family :=
    seconds.apart (Frame.inUse_of_mem (by simp [afterHeld])) computes.pooled
  have zeroing : (zero pending.work).IsPlain := by
    unfold zero
    split <;> exact .singleton rfl
  have plain : (spillCode pending.work spare leftCode rightCode).IsPlain :=
    ((((((leftLoads.plain.append (pushCode_plain _)).append zeroing).append
      rightLoads.plain).append (pushCode_plain _)).append (popCode_plain _)).append (popCode_plain _))
  have presents : pending.Presents ground weight lefts rights (.reg spare)
      (spillCode pending.work spare leftCode rightCode) := by
    intro m leftValue rightValue holds room leftMeant rightMeant
    obtain ⟨loaded, leftRan, leftNear, leftView⟩ := leftLoads.runs m leftValue holds (by omega)
      leftMeant
    have loadedRoom := leftNear.room
    have inside : ∀ parked : Machine, loaded.Within parked → parked.room = loaded.room - 8 →
        ∃ after, parked.run ground.world (zero pending.work ++ rightCode) = some after ∧
          parked.Within after ∧ after.reg .rsp = parked.reg .rsp ∧
          after.view pending.work = rightValue := by
      intro parked within parkedRoom
      obtain ⟨zeroed, zeroRan, _⟩ := Machine.zero_runs ground.world parked working
      have quiet : Bracketed env 0 none 0 (· ∈ [pending.work.family]) (zero pending.work) :=
        (zero_quiet working.ordinary).bracketed fun _ => id
      have zeroNear := Machine.near_of_run quiet zeroing zeroRan
      have reached := (leftNear.within.trans within).trans zeroNear.within
      obtain ⟨final, rightRan, rightNear, rightView⟩ := rightLoads.runs zeroed rightValue
        (ground.steady holds reached) (by rw [zeroNear.room, parkedRoom, loadedRoom]; omega)
        ((computes.right.fixed holds reached).trans rightMeant)
      exact ⟨final, Machine.run_join zeroRan rightRan, zeroNear.within.trans rightNear.within,
        rightNear.stack.1.trans zeroNear.stack.1, rightView⟩
    obtain ⟨final, ran, finalRoom, leftKept, rightView⟩ := Machine.parked_runs working spareWorking
      seconds.width apart (by rw [loadedRoom]; omega) inside
    refine ⟨final, ?_, by rw [finalRoom, loadedRoom]; omega, working,
      Register.not_staging computes.pooled, .register spareWorking seconds.width apart,
      leftKept.trans leftView, ?_⟩
    · have joined := Machine.run_join leftRan ran
      simpa [spillCode] using joined
    · rw [← seconds.width, Machine.content_reg ground.world final spareWorking, rightView]
  obtain ⟨applied, next, applies, delivers⟩ := computes.apply_delivers (start.restored 2).pop plain
    presents
  exact ⟨_, next, yields_spill.mpr ⟨leftCode, middle, leftRun, rightCode, after, rightRun, spare, start,
    chosen, applied, applies, rfl⟩, delivers⟩

theorem leafThenComposite_delivers
    (spared : ∀ r, (frame.push pending.work).free ground.float pending.work.size = .ok r →
      second (r :: r :: pending.work :: frame.held))
    (spilled : ∀ error, (frame.push pending.work).free ground.float pending.work.size =
      .error error → second (pending.work :: pending.work :: frame.held)) :
    Answers (leafThenComposite pending) env frame ground weight pending.result
      (.join compute lefts rights) := by
  have working := computes.working
  cases found : (frame.push pending.work).free ground.float pending.work.size with
  | error error =>
    exact (spill_delivers ordinary visible computes fits admitted (spilled error found)).imp fun run =>
      yields_leafThenComposite.mpr (.inl ⟨error, by rw [working.isFloat]; exact found, run⟩)
  | ok spare =>
    have fresh := Frame.free_fresh found
    have spareWorking : spare.Working ground.float :=
      ⟨List.mem_cons_of_mem _ fresh.pooled, fresh.width ▸ computes.supported⟩
    have apart : spare.family ≠ pending.work.family :=
      (Frame.Seconds.free found).apart (Frame.inUse_of_mem (by simp)) computes.pooled
    have pushed := (Frame.Kept.refl (frame.push pending.work)).touch spare.family
    have started := (ordinary.push working.ordinary).kept pushed
    obtain ⟨leftCode, middle, leftRun, leftLoads⟩ := computes.left.into_loads
      ((frame.push pending.work).touch spare.family) pending.work (pushed.scope.trans visible) started
      (by rw [Frame.touch_held]; exact admitted) computes.leftWidth
    have kept := pushed.trans leftLoads.kept
    have middleHeld : middle.held = pending.work :: frame.held := kept.held
    obtain ⟨rightCode, after, rightRun, rightLoads⟩ := computes.right.into_loads
      (middle.push spare) spare (kept.scope.trans visible)
      ((started.kept leftLoads.kept).push spareWorking.ordinary)
      (by rw [Frame.push_held, middleHeld]; exact spared spare found)
      (fresh.width.trans computes.rightWidth)
    have presents : pending.Presents ground weight lefts rights (.reg spare) (leftCode ++ rightCode) := by
      have parked : pending.work ∈ (middle.push spare).held := by simp [middleHeld]
      refine computes.presents_join fits leftLoads (.register spareWorking fresh.width apart) apart
        parked fun m value holds room meant => ?_
      obtain ⟨after, ran, near, view⟩ := rightLoads.runs m value holds room meant
      refine ⟨after, ran, near, ?_⟩
      rw [← fresh.width, Machine.content_reg ground.world after spareWorking, view]
    obtain ⟨applied, next, applies, delivers⟩ := computes.apply_delivers after.pop.pop
      (leftLoads.plain.append rightLoads.plain) presents
    exact ⟨_, next, yields_leafThenComposite.mpr (.inr ⟨spare, by rw [working.isFloat]; exact found,
      leftCode, middle, leftRun, rightCode, after, rightRun, applied, applies, rfl⟩), delivers⟩

end

end

end Lower
end Nasm64
