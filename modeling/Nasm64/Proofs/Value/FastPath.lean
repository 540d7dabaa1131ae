import Nasm64.Proofs.Value.Binary

/-! The fast path for four leaves, and the choice between the strategies. -/
namespace Nasm64

open Lower

def Register.heads (float : Bool) : List Register → Prop
  | [] => False
  | top :: _ => top.family ∈ poolFamilies float

namespace Lower

variable {env : Env} {ground : Ground} {frame next : Frame} {scope : List (String × Variable)}
  {weight : Nat}

/-- An operator between two leaves that go into registers of the pool. -/
inductive Combines (env : Env) (ground : Ground) (scope : List (String × Variable)) (weight : Nat)
    (op : Operator) (first second : Lowering) : Meaning → Prop
  | intro {lefts rights : Meaning} {compute : BitVec 64 → BitVec 64 → Option (BitVec 64)}
    (left : first.isLeaf = true →
      first.Computes env ground scope weight lefts (Register.heads ground.float))
    (right : second.isLeaf = true →
      second.Computes env ground scope weight rights (Register.heads ground.float))
    (operates : ∀ {operation}, Operation.ofTypes first.type op second.type = .ok operation →
      Operates ground operation first.type.registerSize compute) :
    Combines env ground scope weight op first second (.join compute lefts rights)

structure FourLeaves.Computes (leaves : FourLeaves) (env : Env) (ground : Ground)
    (scope : List (String × Variable)) (left right : Nat) (lefts rights : Meaning) : Prop where
  left : Combines env ground scope left leaves.leftOp leaves.first leaves.second lefts
  right : Combines env ground scope right leaves.rightOp leaves.third leaves.fourth rights

section

variable {oper : Operation} {work dst : Register} {opnd : Operand}

theorem simple_near (env : Env) {w : World} {m after : Machine}
    (simple : isSimple oper.family = true) (lawful : oper.isLawful = true)
    (ord : work.family.isOrdinary = true)
    (ran : m.run w (frame.applied oper work dst opnd).1 = some after) :
    m.Near (· ∈ work.family :: scratchFamilies) after := by
  have quiet : Quiet (work.family :: scratchFamilies)
      (frame.applied oper work dst opnd).1 := by
    unfold Operation.isLawful at lawful
    unfold Frame.applied
    cases known : oper.family <;> rw [known] at simple <;> simp only [known] at lawful
    case arith | logical | floatArith =>
      exact (applyDirect_quiet opnd (bne_iff_ne.mp lawful) ord).mono
        (by simp [scratchFamilies])
    case mul => exact (applyMul_quiet opnd ord).mono (by simp [scratchFamilies])
    all_goals cases simple
  have bracketed : Bracketed env 0 none 0 (· ∈ work.family :: scratchFamilies)
      (frame.applied oper work dst opnd).1 := quiet.bracketed fun _ => id
  exact Machine.near_of_run bracketed (applied_plain lawful) ran

end

/-- The registers taken for the fast path are free and differ from each other. -/
theorem takeMany_fresh {float : Bool} {size : Int} {count : Nat} {registers : List Register}
    (taken : Frame.takeMany float size count frame = (some registers, next)) : (∀ r ∈ registers,
    frame.Fresh float size r) ∧ (registers.map (·.family)).Nodup := by
  induction count generalizing frame registers with
  | zero =>
    cases taken
    exact ⟨fun _ mem => absurd mem List.not_mem_nil, List.nodup_nil⟩
  | succ count ih =>
    unfold Frame.takeMany at taken
    split at taken
    · cases taken
    · rename_i r found
      split at taken
      · rename_i rest after deeper
        cases taken
        obtain ⟨fresh, distinct⟩ := ih deeper
        have other : ∀ later ∈ rest, frame.inUse later.family = false ∧
            later.family ≠ r.family := by
          intro later mem
          have unused := (fresh later mem).unused
          constructor
          · exact (((Frame.Kept.refl frame).touch r.family).covers.push r).unused unused
          · intro same
            rw [same, Frame.inUse_of_mem (by simp)] at unused
            cases unused
        refine ⟨?_, List.nodup_cons.mpr ⟨?_, distinct⟩⟩
        · intro later mem
          rcases List.mem_cons.mp mem with rfl | listed
          · exact Frame.free_fresh found
          · have kept := fresh later listed
            exact ⟨kept.width, kept.supported, kept.pooled, (other later listed).1⟩
        · intro mem
          obtain ⟨later, listed, same⟩ := List.mem_map.mp mem
          exact (other later listed).2 same
      · cases taken

structure Frame.Keeps (frame : Frame) (float : Bool) (size : Int) (register : Register) : Prop where
  member : register ∈ frame.held
  pooled : register.family ∈ Register.poolFamilies float
  width : register.size = size
  supported : Register.inPool float size = true

namespace Frame.Keeps

variable {float : Bool} {size : Int} {r other : Register}

section

variable (keeps : frame.Keeps float size r)

include keeps

theorem working : r.Working float :=
  ⟨List.mem_cons_of_mem _ keeps.pooled, keeps.width ▸ keeps.supported⟩

theorem of_kept (kept : frame.Kept next) : next.Keeps float size r :=
  ⟨by rw [kept.held]; exact keeps.member, keeps.pooled, keeps.width, keeps.supported⟩

theorem view {m after : Machine} (near : m.Near (frame.mayChange [other.family]) after)
    (apart : r.family ≠ other.family) : after.view r = m.view r :=
  near.view (not_mayChange (inUse_of_mem keeps.member) keeps.pooled apart)

theorem simple_view {m after : Machine} (near : m.Near (· ∈ other.family :: scratchFamilies) after)
    (apart : r.family ≠ other.family) : after.view r = m.view r := by
  refine near.view fun mem => ?_
  rcases List.mem_cons.mp mem with same | scratch
  · exact apart same
  · exact Register.not_scratch keeps.pooled scratch

end

end Frame.Keeps

theorem simple_runs {oper : Operation} {size : Int} {work opnd : Register}
    {compute : BitVec 64 → BitVec 64 → Option (BitVec 64)} {inner : Frame} {m : Machine}
    {left right result : BitVec 64} (env : Env) (frame : Frame)
    (operates : Operates ground oper size compute) (simple : isSimple oper.family = true)
    (lawful : oper.isLawful = true) (works : inner.Keeps ground.float size work)
    (other : inner.Keeps ground.float size opnd) (apart : opnd.family ≠ work.family)
    (fits : 16 ≤ m.room) (lefts : m.view work = left) (rights : m.view opnd = right)
    (computed : compute left right = some result) :
    ∃ after, m.run ground.world (frame.applied oper work work (.reg opnd)).1 = some after ∧
      m.Near (· ∈ work.family :: scratchFamilies) after ∧ after.view work = result := by
  have content : m.content ground.float ground.world work.size (.reg opnd) = some right := by
    rw [works.width, ← other.width, Machine.content_reg ground.world m other.working, rights]
  have presents : m.Presents ground.float ground.world work (.reg opnd) left right :=
    ⟨works.working, Register.not_staging works.pooled,
      .register other.working (other.width.trans works.width.symm) apart, lefts, content⟩
  obtain ⟨after, ran, view⟩ := operates frame works.width rfl presents fits computed
  rw [applied_register, resultOf, isSimple_compares simple] at view
  exact ⟨after, ran, simple_near env simple lawful works.working.ordinary ran, view⟩

structure Frame.Quartet (frame : Frame) (float : Bool) (work second third fourth : Register) :
    Prop where
  ordinary : frame.Ordinary
  works : frame.Keeps float work.size work
  seconds : frame.Keeps float work.size second
  thirds : frame.Keeps float work.size third
  fourths : frame.Keeps float work.size fourth
  secondWork : second.family ≠ work.family
  thirdWork : third.family ≠ work.family
  fourthWork : fourth.family ≠ work.family
  secondThird : second.family ≠ third.family
  secondFourth : second.family ≠ fourth.family
  thirdFourth : third.family ≠ fourth.family

theorem Frame.Quartet.of_kept (quartet : frame.Quartet float work second third fourth)
    (kept : frame.Kept next) : next.Quartet float work second third fourth :=
  { quartet with
    ordinary := quartet.ordinary.kept kept
    works := quartet.works.of_kept kept
    seconds := quartet.seconds.of_kept kept
    thirds := quartet.thirds.of_kept kept
    fourths := quartet.fourths.of_kept kept }

theorem takeMany_quartet (ord : frame.Ordinary) (working : work.Working float)
    (pooled : work.family ∈ Register.poolFamilies float)
    (taken : Frame.takeMany float work.size 3 (frame.push work) =
      (some [second, third, fourth], next)) :
    next.Quartet float work second third fourth ∧ next.scope = frame.scope := by
  obtain ⟨fresh, distinct⟩ := takeMany_fresh taken
  obtain ⟨grown, _, usable⟩ := takeMany_some taken
  have held : next.held = [fourth, third, second, work] ++ frame.held := by simpa using grown.held
  have keeps : ∀ r ∈ [second, third, fourth],
      next.Keeps float work.size r ∧ r.family ≠ work.family := by
    intro r mem
    have given := fresh r mem
    refine ⟨⟨?_, given.pooled, given.width, working.supported⟩, fun same => ?_⟩
    · rw [held]
      simp only [List.mem_cons, List.not_mem_nil, or_false] at mem
      rcases mem with rfl | rfl | rfl <;> simp
    · have unused := given.unused
      rw [same, Frame.inUse_of_mem (by simp)] at unused
      cases unused
  obtain ⟨seconds, secondWork⟩ := keeps second (by simp)
  obtain ⟨thirds, thirdWork⟩ := keeps third (by simp)
  obtain ⟨fourths, fourthWork⟩ := keeps fourth (by simp)
  simp only [List.map_cons, List.map_nil, List.nodup_cons, List.mem_cons, List.not_mem_nil, or_false,
    not_or] at distinct
  obtain ⟨⟨secondThird, secondFourth⟩, thirdFourth, _⟩ := distinct
  refine ⟨⟨?_, ⟨by simp [held], pooled, rfl, working.supported⟩, seconds, thirds, fourths, secondWork,
    thirdWork, fourthWork, secondThird, secondFourth, thirdFourth⟩, grown.scope⟩
  intro r mem
  rw [held] at mem
  simp only [List.cons_append, List.nil_append, List.mem_cons] at mem
  rcases mem with rfl | rfl | rfl | rfl | outer
  · exact fourths.working.ordinary
  · exact thirds.working.ordinary
  · exact seconds.working.ordinary
  · exact working.ordinary
  · exact ord r outer

section

variable {pending : Pending} {left right : Nat} {lefts rights : Meaning}
  {first second : List Register → Prop} {compute : BitVec 64 → BitVec 64 → Option (BitVec 64)}

/-- With four registers each leaf has its own, and the inner operators find both of theirs. -/
theorem fourRegisters_delivers {leaves : FourLeaves} (ordinary : frame.Ordinary)
    (visible : frame.scope = scope)
    (computes : pending.Computes env ground scope left right lefts rights first second compute)
    (leafs : leaves.Computes env ground scope left right lefts rights)
    (fits : left + right + 16 ≤ weight)
    (found : simpleOperations? pending.work leaves = some (leftOperation, rightOperation))
    (taken : Frame.takeMany pending.work.isFloat pending.work.size 3 (frame.push pending.work) =
      (some [r, third, fourth], start)) :
    ∃ fragment next, FourRegisters env frame pending leaves leftOperation rightOperation fragment
      next ∧ Delivers ground weight pending.result.family pending.result.size
      (.join compute lefts rights) fragment := by
  have working := computes.working
  obtain ⟨fitting, leftFound, rightFound, leftSimple, rightSimple⟩ := simpleOperations?_eq_some found
  obtain ⟨leftLawful, rightLawful⟩ := simpleOperations?_lawful found
  obtain ⟨quartet, same⟩ := takeMany_quartet ordinary working computes.pooled
    (working.isFloat ▸ taken)
  have visibly := same.trans visible
  obtain ⟨firstLeaf, -, firstWidth⟩ := fitting leaves.first (by simp)
  obtain ⟨secondLeaf, -, secondWidth⟩ := fitting leaves.second (by simp)
  obtain ⟨thirdLeaf, -, thirdWidth⟩ := fitting leaves.third (by simp)
  obtain ⟨fourthLeaf, -, fourthWidth⟩ := fitting leaves.fourth (by simp)
  obtain ⟨leftCombines, rightCombines⟩ := leafs
  cases leftCombines with
  | @intro firsts seconds leftCompute firstNode secondNode leftOperates =>
  cases rightCombines with
  | @intro thirds fourths rightCompute thirdNode fourthNode rightOperates =>
  have leftOperation' := firstWidth ▸ leftOperates leftFound
  have rightOperation' := thirdWidth ▸ rightOperates rightFound
  -- Each load keeps the frame, so that all four registers stay in use until the last one.
  obtain ⟨firstCode, afterFirst, firstRun, firstLoads⟩ := (firstNode firstLeaf).into_loads start
    pending.work visibly quartet.ordinary quartet.works.pooled firstWidth.symm
  have quartet₁ := quartet.of_kept firstLoads.kept
  have visible₁ := firstLoads.kept.scope.trans visibly
  obtain ⟨secondCode, afterSecond, secondRun, secondLoads⟩ := (secondNode secondLeaf).into_loads
    afterFirst r visible₁ quartet₁.ordinary quartet.seconds.pooled
    (quartet.seconds.width.trans secondWidth.symm)
  have quartet₂ := quartet₁.of_kept secondLoads.kept
  have visible₂ := secondLoads.kept.scope.trans visible₁
  obtain ⟨thirdCode, afterThird, thirdRun, thirdLoads⟩ := (thirdNode thirdLeaf).into_loads
    afterSecond third visible₂ quartet₂.ordinary quartet.thirds.pooled
    (quartet.thirds.width.trans thirdWidth.symm)
  have quartet₃ := quartet₂.of_kept thirdLoads.kept
  obtain ⟨fourthCode, afterFourth, fourthRun, fourthLoads⟩ := (fourthNode fourthLeaf).into_loads
    afterThird fourth (thirdLoads.kept.scope.trans visible₂) quartet₃.ordinary quartet.fourths.pooled
    (quartet.fourths.width.trans fourthWidth.symm)
  let before := afterFourth.pop.pop.pop.pop
  let leftApplied := before.applied leftOperation pending.work pending.work (.reg r)
  let afterLeft := before.balanced (before.applySaves leftOperation pending.work (.reg r))
  let rightApplied := afterLeft.applied rightOperation third third (.reg fourth)
  let afterRight := afterLeft.balanced (afterLeft.applySaves rightOperation third (.reg fourth))
  have plain : (firstCode ++ secondCode ++ thirdCode ++ fourthCode ++ leftApplied.1 ++
      rightApplied.1).IsPlain :=
    ((((firstLoads.plain.append secondLoads.plain).append thirdLoads.plain).append
      fourthLoads.plain).append (applied_plain leftLawful)).append (applied_plain rightLawful)
  have presents : pending.Presents ground weight (.join leftCompute firsts seconds)
      (.join rightCompute thirds fourths) (.reg third) (firstCode ++ secondCode ++ thirdCode ++
        fourthCode ++ leftApplied.1 ++ rightApplied.1) := by
    intro m leftValue rightValue holds room leftMeant rightMeant
    obtain ⟨a, aMeant, b, bMeant, leftComputed⟩ := Meaning.join_eq_some.mp leftMeant
    obtain ⟨c, cMeant, d, dMeant, rightComputed⟩ := Meaning.join_eq_some.mp rightMeant
    obtain ⟨one, ran₁, near₁, view₁⟩ := firstLoads.runs m a holds (by omega) aMeant
    have within₁ := near₁.within
    have room₁ := near₁.room
    obtain ⟨two, ran₂, near₂, view₂⟩ := secondLoads.runs one b (ground.steady holds within₁)
      (by omega) (((secondNode secondLeaf).fixed holds within₁).trans bMeant)
    have within₂ := within₁.trans near₂.within
    have room₂ := near₂.room
    obtain ⟨three, ran₃, near₃, view₃⟩ := thirdLoads.runs two c (ground.steady holds within₂)
      (by omega) (((thirdNode thirdLeaf).fixed holds within₂).trans cMeant)
    have within₃ := within₂.trans near₃.within
    have room₃ := near₃.room
    obtain ⟨four, ran₄, near₄, view₄⟩ := fourthLoads.runs three d (ground.steady holds within₃)
      (by omega) (((fourthNode fourthLeaf).fixed holds within₃).trans dMeant)
    have room₄ := near₄.room
    have aKept : four.view pending.work = a := by
      rw [quartet₃.works.view near₄ quartet.fourthWork.symm,
        quartet₂.works.view near₃ quartet.thirdWork.symm,
        quartet₁.works.view near₂ quartet.secondWork.symm, view₁]
    have bKept : four.view r = b := by
      rw [quartet₃.seconds.view near₄ quartet.secondFourth,
        quartet₂.seconds.view near₃ quartet.secondThird, view₂]
    have cKept : four.view third = c := by
      rw [quartet₃.thirds.view near₄ quartet.thirdFourth, view₃]
    obtain ⟨five, ran₅, near₅, view₅⟩ := simple_runs env before leftOperation' leftSimple leftLawful
      quartet.works quartet.seconds quartet.secondWork (by omega) aKept bKept leftComputed
    have room₅ := near₅.room
    obtain ⟨six, ran₆, near₆, view₆⟩ := simple_runs env afterLeft rightOperation' rightSimple
      rightLawful quartet.thirds quartet.fourths quartet.thirdFourth.symm (by omega)
      ((quartet.thirds.simple_view near₅ quartet.thirdWork).trans cKept)
      ((quartet.fourths.simple_view near₅ quartet.fourthWork).trans view₄) rightComputed
    have room₆ := near₆.room
    have thirdWidth := quartet.thirds.width
    refine ⟨six, Machine.run_join (Machine.run_join (Machine.run_join (Machine.run_join
      (Machine.run_join ran₁ ran₂) ran₃) ran₄) ran₅) ran₆, by omega, working,
      Register.not_staging computes.pooled, .register quartet.thirds.working thirdWidth
      quartet.thirdWork, ?_, ?_⟩
    · rw [quartet.works.simple_view near₆ quartet.thirdWork.symm, view₅]
    · rw [← thirdWidth, Machine.content_reg ground.world six quartet.thirds.working, view₆]
  obtain ⟨applied, next, applies, delivers⟩ := computes.apply_delivers afterRight plain presents
  have simply : ∀ {oper : Operation} {dst : Register},
      isSimple oper.family = true → compares oper = true → dst.isFloat = false := by
    intro oper dst simple comparing
    rw [isSimple_compares simple] at comparing
    cases comparing
  exact ⟨_, next, ⟨r, third, fourth, start, taken, firstCode, afterFirst, firstRun, secondCode,
    afterSecond, secondRun, thirdCode, afterThird, thirdRun, fourthCode, afterFourth, fourthRun,
    leftApplied, afterLeft, yields_apply.mpr ⟨simply leftSimple, rfl, rfl⟩, rightApplied, afterRight,
    yields_apply.mpr ⟨simply rightSimple, rfl, rfl⟩, applied, applies, rfl⟩, delivers⟩

/-- The operands accept the registers that the strategies choose for them. -/
structure Pending.Admits (pending : Pending) (frame : Frame) (float : Bool)
    (first second : List Register → Prop) : Prop where
  left : first (pending.work :: pending.work :: frame.held)
  leaf : pending.right.isLeaf = true → ∀ register,
    (frame.push pending.work).Seconds float pending.work.size register →
    second (register :: pending.work :: frame.held)
  beside : pending.right.isLeaf = false → pending.left.isLeaf = true → ∀ register,
    (frame.push pending.work).free float pending.work.size = .ok register →
    second (register :: register :: pending.work :: frame.held)
  spilled : pending.right.isLeaf = false → (pending.left.isLeaf = false ∨
    ∃ error, (frame.push pending.work).free float pending.work.size = .error error) →
    second (pending.work :: pending.work :: frame.held)

theorem lowerPending_delivers (ord : frame.Ordinary) (visible : frame.scope = scope)
    (computes : pending.Computes env ground scope left right lefts rights first second compute)
    (leafs : ∀ four, leaves = some four → four.Computes env ground scope left right lefts rights)
    (fits : left + right + 16 ≤ weight) (admits : pending.Admits frame ground.float first second) :
    Answers (lowerPending pending leaves) env frame ground weight pending.result
      (.join compute lefts rights) := by
  cases rightLeaf : pending.right.isLeaf with
  | true =>
    exact (leftThenLeaf_delivers ord visible computes fits admits.left (admits.leaf rightLeaf)).imp
      fun run => yields_lowerPending.mpr (.inl ⟨rightLeaf, run⟩)
  | false =>
  cases leftLeaf : pending.left.isLeaf with
  | true =>
    exact (leafThenComposite_delivers ord visible computes fits admits.left
      (admits.beside rightLeaf leftLeaf) fun error none =>
        admits.spilled rightLeaf (.inr ⟨error, none⟩)).imp fun run =>
      yields_lowerPending.mpr (.inr (.inl ⟨rightLeaf, leftLeaf, run⟩))
  | false =>
  have spills : ∀ start : Frame, frame.Kept start →
      Answers (spill pending) env start ground weight pending.result (.join compute lefts rights) := by
    intro start kept
    have held : start.held = frame.held := kept.held
    exact spill_delivers (ord.kept kept) (kept.scope.trans visible) computes fits
      (held ▸ admits.left) (held ▸ admits.spilled rightLeaf (.inl leftLeaf))
  by_cases fast : env.hasFeature .fastPath = true ∧ leaves ≠ none
  · obtain ⟨enabled, given⟩ := fast
    obtain ⟨four, rfl⟩ := Option.ne_none_iff_exists'.mp given
    -- The fast path may give up before it emits anything, and the operator is spilled then.
    have falls : ∀ start, frame.Kept start → Yields (fastPath? pending four) env frame none start →
        Answers (lowerPending pending (some four)) env frame ground weight pending.result
          (.join compute lefts rights) := by
      intro start kept run
      exact (spills start kept).imp fun spilled => yields_lowerPending.mpr (.inr (.inr
        ⟨rightLeaf, leftLeaf, .inr ⟨four, enabled, rfl, none, start, run, .inr ⟨rfl, spilled⟩⟩⟩))
    cases found : simpleOperations? pending.work four with
    | none => exact falls frame (.refl frame) (yields_fastPath?.mpr (.inl ⟨found, rfl, rfl⟩))
    | some operations =>
      obtain ⟨leftOperation, rightOperation⟩ := operations
      cases taken : Frame.takeMany pending.work.isFloat pending.work.size 3
          (frame.push pending.work) with
      | mk res start =>
      cases res with
      | none =>
        exact falls start.pop (takeMany_none taken).1.pop (yields_fastPath?.mpr
          (.inr ⟨leftOperation, rightOperation, found, .inl ⟨start, taken, rfl, rfl⟩⟩))
      | some registers =>
        obtain ⟨second, third, fourth, rfl⟩ := List.length_eq_three.mp (takeMany_length taken)
        obtain ⟨fragment, next, run, delivers⟩ := fourRegisters_delivers ord visible computes
          (leafs four rfl) fits found taken
        exact ⟨fragment, next, yields_lowerPending.mpr (.inr (.inr ⟨rightLeaf, leftLeaf,
          .inr ⟨four, enabled, rfl, some fragment, next, yields_fastPath?.mpr
            (.inr ⟨leftOperation, rightOperation, found, .inr ⟨fragment, rfl, run⟩⟩),
            .inl ⟨rfl, rfl⟩⟩⟩)), delivers⟩
  · have slow : env.hasFeature .fastPath = false ∨ leaves = none := by
      by_contra both
      simp only [not_or, Bool.not_eq_false] at both
      exact fast both
    exact (spills frame (.refl frame)).imp fun run => yields_lowerPending.mpr
      (.inr (.inr ⟨rightLeaf, leftLeaf, .inl ⟨slow, run⟩⟩))

def Pending.within (position : Position) (node other : Lowering) (operation : Operation) (ty : Ty)
    (top : Register) : Pending :=
  ⟨position, node, other, operation, top.resize ty.registerSize, top.resize node.type.registerSize⟩

theorem Pending.within_result {pos : Position} {node other : Lowering} {oper : Operation}
    {ty : Ty} {top : Register}
    (size : ty.registerSize = if compares oper then 1 else node.type.registerSize) :
    (Pending.within pos node other oper ty top).result = ⟨top.family, ty.registerSize⟩ := by
  rw [size]
  unfold Pending.result resultOf Pending.within
  dsimp only
  rw [size]
  split <;> rfl

theorem lowerBinary_within (innermost : frame.held = top :: held)
    (found : Operation.ofTypes node.type op other.type = .ok oper)
    (res : oper.resultType node.type = ty) (same : node.type.registerSize = other.type.registerSize)
    (nonzero : node.type.registerSize ≠ 0)
    (class_ : top.isFloat = node.type.isFloat ∧ top.isFloat = ty.isFloat)
    (run : Yields (lowerPending (Pending.within pos node other oper ty top) (leaves ())) env frame
      frag next) : ∃ after, Yields (lowerBinary pos op node other leaves) env frame frag after := by
  subst res
  have used : frame.inUse top.family = true := Frame.inUse_of_mem (by simp [innermost])
  have unheld : frame.hold (top.resize (oper.resultType node.type).registerSize) = frame :=
    if_pos used
  refine ⟨_, yields_lowerBinary.mpr ⟨same, nonzero, oper, found, _, frame,
    yields_destination.mpr (.inl ⟨top, by rw [innermost]; rfl, class_.2, rfl, rfl⟩),
    _, frame, ?_, next, run, rfl⟩⟩
  rw [unheld]
  exact yields_workFor.mpr (.inl ⟨class_.1, rfl, rfl⟩)

theorem lowerBinary_delivers (ord : frame.Ordinary) (visible : frame.scope = scope)
    (innermost : frame.held = top :: held) (alike : top.isFloat = ground.float)
    (found : Operation.ofTypes node.type op other.type = .ok oper)
    (res : oper.resultType node.type = ty)
    (class_ : node.type.isFloat = ground.float ∧ ty.isFloat = ground.float)
    (size : ty.registerSize = if compares oper then 1 else node.type.registerSize)
    (computes : (Pending.within pos node other oper ty top).Computes env ground scope left right
      lefts rights first second compute)
    (leafs : ∀ four, leaves () = some four → four.Computes env ground scope left right lefts rights)
    (fits : left + right + 16 ≤ weight)
    (admits : (Pending.within pos node other oper ty top).Admits frame ground.float first second) :
    Answers (lowerBinary pos op node other leaves) env frame ground weight
      ⟨top.family, ty.registerSize⟩ (.join compute lefts rights) := by
  have nonzero : node.type.registerSize ≠ 0 := by
    intro zero
    have supported : Register.inPool ground.float node.type.registerSize = true :=
      computes.left.supported
    rw [zero] at supported
    cases known : ground.float <;> rw [known] at supported <;> cases supported
  obtain ⟨fragment, next, run, delivers⟩ := lowerPending_delivers ord visible computes leafs fits
    admits
  obtain ⟨after, lowered⟩ := lowerBinary_within innermost found res computes.rightWidth nonzero
    ⟨alike.trans class_.1.symm, alike.trans class_.2.symm⟩ run
  rw [Pending.within_result size] at delivers
  exact ⟨fragment, after, lowered, delivers⟩

end

end Lower

namespace Expr

variable {env : Env} {ground : Ground} {scope : List (String × Variable)}

/-- The value of a binary expression is that of its operator on its operands. -/
def Splits (env : Env) (ground : Ground) (scope : List (String × Variable)) (meaning : Meaning)
    (expr : Expr) : Prop :=
  ∀ {position op first second ty}, expr = binary position op first second ty →
    Combines env ground scope (expr.burden env) op first.lowering second.lowering meaning

theorem fourLeaves_computes (first : left.Splits env ground scope lefts)
    (second : right.Splits env ground scope rights) (found : fourLeaves left right = some four) :
    four.Computes env ground scope (left.burden env) (right.burden env) lefts rights := by
  unfold fourLeaves at found
  split at found
  · cases found
    exact ⟨first rfl, second rfl⟩
  · cases found

end Expr
end Nasm64
