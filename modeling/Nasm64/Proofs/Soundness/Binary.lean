import Nasm64.Proofs.Soundness.Prefixed

/-! Binary operators on sound operands. Whatever strategy is chosen, the registers in use are of the
class of the operands, and a comparison leaves its result in a general one. -/
namespace Nasm64

namespace Lower

variable {typed : Prop} {c : Context} {labels : List String} {effects more : List Effect}
  {pos : Position} {work dst : Register} {opnd : Operand} {oper : Operation} {isFloat : Bool}

/-- The instructions on the accumulator are at least four bytes wide. -/
theorem inPool_max (pooled : Register.inPool isFloat size = true) (other : Bool) :
    Register.inPool other (max size 4) = true := by
  have general := Register.inPool_general pooled
  simp only [Register.inPool, Bool.false_eq_true, if_false, Bool.or_eq_true, beq_iff_eq] at general
  rcases general with ((rfl | rfl) | rfl) | rfl <;> cases other <;> rfl

theorem applyDirect_proper (named : work.Named typed) (proper : opnd.Proper typed labels)
    (mn : Mnemonic) : Code.Proper typed labels (applyDirect mn work opnd) := by
  have scratch : Register.scratch.Named typed := fun _ => rfl
  cases fitting : opnd.encodable work.size <;>
    simp [applyDirect, encoded, fitting, named, proper, scratch]

theorem applyMul_proper (worked : typed → work.Serves isFloat) (proper : opnd.Proper typed labels) :
    Code.Proper typed labels (applyMul work opnd) := by
  have named := Register.named_of_serves worked
  have half : (Register.scratch.resize 4).Named typed := fun _ => rfl
  have wide : (work.resize 4).Named typed :=
    Register.named_of_serves fun is => (worked is).resize (by cases isFloat <;> rfl)
  unfold applyMul
  split
  · exact applyDirect_proper named proper _
  · dsimp only
    split <;> simp [named, proper, half, wide]

theorem saveCode_proper (each : ∀ r ∈ saved, typed → r.Serves r.isFloat) :
    Code.Proper typed labels (saveCode saved) :=
  Code.proper_flatten.mpr (List.forall_mem_map.mpr fun r mem =>
    pushCode_proper (each r mem))

theorem restoreCode_proper (each : ∀ r ∈ saved, typed → r.Serves r.isFloat) :
    Code.Proper typed labels (restoreCode saved) :=
  Code.proper_flatten.mpr (List.forall_mem_map.mpr fun r mem =>
    popCode_proper (each r (List.mem_reverse.mp mem)))

theorem serves_inUseOf {frame : Frame} {r : Register} {families : List Family}
    (usable : ∀ fam ∈ families, fam.isUsable = true) (mem : r ∈ frame.inUseOf families) : r.Serves r.isFloat := by
  obtain ⟨fam, listed, rfl⟩ := List.mem_map.mp mem
  exact ⟨usable fam (List.mem_filter.mp listed).1, rfl, Register.inPool_eight _⟩

theorem accumulatorCode_proper (oper : Operation) (worked : typed → work.Serves isFloat)
    (proper : opnd.Proper typed labels) :
    Code.Proper typed labels (accumulatorStaging oper work opnd :: accumulatorBody oper work) := by
  have named := Register.named_of_serves worked
  have wide : (work.resize (max work.size 4)).Named typed :=
    fun is => ((worked is).resize (inPool_max (worked is).pooled _)).valid
  have general {fam : Family} (usable : fam.isUsable = true) (whole : fam.isFloat = false) :
      (⟨fam, max work.size 4⟩ : Register).Named typed :=
    fun is => Register.Serves.valid ⟨usable, whole, inPool_max (worked is).pooled false⟩
  have scratch : (Register.scratch.resize (max work.size 4)).Named typed := general rfl rfl
  have acc : (Register.accumulator.resize (max work.size 4)).Named typed := general rfl rfl
  have high : (⟨.rdx, max work.size 4⟩ : Register).Named typed := general rfl rfl
  have half : (⟨.rdx, 4⟩ : Register).Named typed := fun _ => rfl
  have stage : (accumulatorStaging oper work opnd).Proper typed labels := by
    unfold accumulatorStaging
    dsimp only
    split <;> simp [scratch, proper]
  have loading : Code.Proper typed labels (accumulatorLoading oper work) := by
    unfold accumulatorLoading
    dsimp only
    split
    · simp [acc, named]
    · split <;> simp [acc, named]
  have extension : Code.Proper typed labels (accumulatorExtension oper work) := by
    unfold accumulatorExtension
    split
    · simp
    · split <;> simp [half]
  have res : (accumulatorResult oper work).Named typed := by
    unfold accumulatorResult
    split
    · exact high
    · exact acc
  have storing : Code.Proper typed labels (accumulatorStoring oper work) := by
    unfold accumulatorStoring
    dsimp only
    split <;> simp [wide, res]
  simp [accumulatorBody, stage, loading, extension, storing, scratch]

section

variable (worked : typed → work.Serves isFloat) (proper : opnd.Proper typed labels)

include worked proper

theorem shiftCode_proper {frame : Frame} (mn : Mnemonic) :
    Code.Proper typed labels (frame.shiftCode mn work opnd) := by
  have named := Register.named_of_serves worked
  have scratch : Register.scratch.Named typed := fun _ => rfl
  have half : (Register.scratch.resize 4).Named typed := fun _ => rfl
  have sized : (Register.scratch.resize work.size).Named typed :=
    fun is => (Register.serves_scratch (Register.inPool_general (worked is).pooled)).valid
  have count {size : Int} (pooled : Register.inPool false size = true) :
      (⟨.rcx, size⟩ : Register).Named typed := fun _ => Register.Serves.valid ⟨rfl, rfl, pooled⟩
  have counter : ∀ r ∈ frame.inUseOf [.rcx], typed → r.Serves r.isFloat :=
    fun r mem _ => serves_inUseOf (by decide) mem
  have byte : (⟨.rcx, 1⟩ : Register).Named typed := count rfl
  have double : (⟨.rcx, 4⟩ : Register).Named typed := count rfl
  have quad : (⟨.rcx, 8⟩ : Register).Named typed := count rfl
  unfold Frame.shiftCode
  split
  · simp [named]
  · split
    · simp [shiftStaging, shiftExchanged, named, proper, scratch, sized, byte, quad]
    · simp [shiftStaging, shiftBody, named, proper, half, sized, byte, double,
        saveCode_proper counter, restoreCode_proper counter]

end

section

variable (worked : c.typed → work.Serves isFloat)

include worked

/-- An operator leaves its result in a register of its class. -/
theorem apply_steady (proper : opnd.Proper c.typed labels)
    (targeted : c.typed → compares oper = true → dst.Serves false) :
    Steady c labels (apply pos oper work dst opnd) fun outcome =>
      Code.Proper c.typed labels outcome.1 ∧ (c.typed → outcome.2.Serves (resultClass oper isFloat)) := by
  have named := Register.named_of_serves worked
  have direct := applyDirect_proper named proper oper.mnemonic
  cases compared : compares oper with
  | true =>
    have set_ : Steady c labels
        (if dst.isFloat then fail pos (.floatComparison dst)
          else return (applyDirect oper.mnemonic work opnd ++
            [.unary (oper.condition.getD .sete) (.reg (dst.resize 1))], dst.resize 1))
        fun outcome => Code.Proper c.typed labels outcome.1 ∧
          (c.typed → outcome.2.Serves (resultClass oper isFloat)) := by
      have serves : c.typed → (dst.resize 1).Serves false :=
        fun is => (targeted is compared).resize rfl
      refine .ite (fun float => .fail fun is => ?_) fun _ => .pure ⟨rfl, ?_, ?_⟩
      · rw [(targeted is compared).ofClass] at float
        cases float
      · simp [direct, Register.named_of_serves serves]
      · simpa [resultClass, compared] using serves
    unfold apply
    cases fam : oper.family <;> simp only [compares, fam] at compared ⊢ <;>
      first | exact set_ | cases compared
  | false =>
    have class_ : resultClass oper isFloat = isFloat := by simp [resultClass, compared]
    rw [class_]
    refine .silent _ ⟨fun _ _ _ => yields_apply.mpr ⟨by simp [compared], rfl, rfl⟩, fun _ _ => rfl,
      fun _ => rfl, fun _ => rfl⟩
      fun frame => ⟨rfl, rfl, ?_⟩
    have saved : ∀ r ∈ frame.accumulatorSaved work, c.typed → r.Serves r.isFloat :=
      fun r mem _ => serves_inUseOf (fun fam listed => by
        have known := (List.mem_filter.mp listed).1
        simp only [List.mem_cons, List.not_mem_nil, or_false] at known
        rcases known with rfl | rfl <;> rfl) mem
    have acc := accumulatorCode_proper oper worked proper
    rw [Code.proper_cons] at acc
    simp only [Frame.applied]
    cases fam : oper.family with
    | arith | logical | floatArith => exact ⟨direct, worked⟩
    | mul => exact ⟨applyMul_proper worked proper, worked⟩
    | unsignedMul | div | rem =>
      refine ⟨?_, worked⟩
      simp [acc, saveCode_proper saved, restoreCode_proper saved]
    | shift => exact ⟨shiftCode_proper worked proper _, worked⟩
    | compare | floatCompare => simp [compares, fam] at compared

omit worked in
theorem scratchFor_steady (pooled : c.typed → Register.inPool isFloat size = true) :
    Steady c labels (scratchFor isFloat size) fun r => c.typed → r.Serves isFloat := by
  refine .ite (fun float => .step (.touch _) fun _ _ => .pure ⟨rfl, fun is => ?_⟩) fun general =>
    .pure ⟨rfl, fun is => ?_⟩
  · subst float
    exact ⟨rfl, rfl, pooled is⟩
  · rw [eq_false_of_ne_true general] at pooled ⊢
    exact ⟨rfl, rfl, pooled is⟩

theorem spareFor_steady :
    Steady c labels (spareFor work) fun second => c.typed → second.Serves isFloat := by
  refine .get (fun _ _ => rfl) fun frame _ => ?_
  split
  · next r found =>
    exact .pure ⟨rfl, fun is => (worked is).ofClass ▸ (Frame.free_fresh found).serves⟩
  · refine (scratchFor_steady fun is => ?_).mono fun _ serves is => (worked is).ofClass ▸ serves is
    exact (worked is).ofClass ▸ (worked is).pooled

theorem takeSpareFor_steady :
    Steady c labels (takeSpareFor work) fun second => c.typed → second.Serves isFloat := by
  refine .step (.acquire? _ _) fun res found => ?_
  split
  · next r => exact .pure ⟨rfl, fun is => (worked is).ofClass ▸ found.1 r rfl⟩
  · refine (scratchFor_steady fun is => ?_).mono fun _ serves is => (worked is).ofClass ▸ serves is
    exact (worked is).ofClass ▸ (worked is).pooled

end

section

variable {left right : Lowering} {ty : Ty}

/-- What the strategies rely on: both operands are sound and have values of one class, which `work` is
for, and a comparison has a general register for its result. -/
structure Pending.Sound (c : Context) (effects more : List Effect) (pending : Pending) (ty : Ty) :
    Prop where
  left : pending.left.Sound c effects
  right : pending.right.Sound c more
  valued : pending.left.type.scalar?.isSome = true ∧ pending.right.type.scalar?.isSome = true
  alike : pending.right.type.isFloat = pending.left.type.isFloat
  worked : c.typed → pending.work.Serves pending.left.type.isFloat
  targeted : c.typed → compares pending.operation = true → pending.target.Serves false
  result : resultClass pending.operation pending.left.type.isFloat = ty.isFloat

variable {pending : Pending} {leaves : FourLeaves}

section

variable (sound : pending.Sound c effects more ty)

include sound

namespace Pending.Sound

theorem intoLeft :
    Meets c labels effects (pending.left.into pending.work) (Code.Proper c.typed) :=
  sound.left.into (fun _ => sound.valued.1) sound.worked

theorem intoRight (serves : c.typed → second.Serves pending.left.type.isFloat) :
    Meets c labels more (pending.right.into second) (Code.Proper c.typed) :=
  sound.right.into (fun _ => sound.valued.2) (sound.alike ▸ serves)

theorem apply (proper : opnd.Proper c.typed labels) :
    Steady c labels (Lower.apply pending.position pending.operation pending.work pending.target
        opnd) fun outcome => Code.Proper c.typed labels outcome.1 ∧
      (c.typed → outcome.2.Serves ty.isFloat) :=
  sound.result ▸ apply_steady sound.worked proper sound.targeted

end Pending.Sound

theorem leftThenLeaf_meets :
    Meets c labels (effects ++ more) (leftThenLeaf pending) (Fragment.Proper c.typed ty) := by
  refine .step (.push fun is => (sound.worked is).usable) fun _ _ => ?_
  refine .step (spareFor_steady sound.worked) fun second serves => ?_
  refine .bind sound.intoLeft fun afterLeft leftCode _ lefts => ?_
  refine .step (.push fun is => (serves is).usable) fun _ _ => ?_
  refine .before sound.right.value fun known frag grown proper => ?_
  refine .step (Lowering.finish_steady fun is => ?_) fun opnd same => ?_
  · have present := proper.toFits.shape (fun _ => sound.valued.2) is
    cases frag with
    | inline | value => rfl
    | effect => contradiction
  have given : (opnd.getD (.reg second)).Proper c.typed known := by
    subst same
    cases found : frag.operand? .reg with
    | some opnd => exact proper.toFits.operand? found
    | none => simpa using Register.named_of_serves serves
  have noted : Steady c known (modify fun frame => frame.touchFor frag second) fun _ => True := by
    unfold Frame.touchFor
    split
    · exact .touch second.family
    · exact .modify ⟨fun _ _ _ => rfl, fun _ _ => rfl, fun _ => rfl, fun _ => rfl⟩ fun _ => ⟨rfl, rfl⟩
  refine .step noted fun _ _ => .step .pop fun _ _ => .step .pop fun _ _ => ?_
  refine .step (sound.apply given) fun applied ⟨own, served⟩ => ?_
  exact .pure (Fragment.proper_value (by simp [lefts.mono grown, proper.code, own]) served)

theorem spill_meets :
    Meets c labels (effects ++ more) (spill pending) (Fragment.Proper c.typed ty) := by
  refine .step (.push fun is => (sound.worked is).usable) fun _ _ => ?_
  refine .bind sound.intoLeft fun afterLeft leftCode _ lefts => ?_
  refine .step (.savePush sound.worked) fun parking parks => ?_
  refine .before (sound.intoRight sound.worked) fun known rightCode grown rights => ?_
  refine .step (.savePush sound.worked) fun swapping swaps => ?_
  refine .step (takeSpareFor_steady sound.worked) fun second serves => ?_
  refine .step (.restorePop serves) fun rightBack rightRestores => ?_
  refine .step (.restorePop sound.worked) fun leftBack leftRestores => .step .pop fun _ _ => ?_
  have second_named : (Operand.reg second).Proper c.typed known := by
    simpa using Register.named_of_serves serves
  refine .step (sound.apply second_named) fun applied ⟨own, served⟩ => ?_
  have cleared : Code.Proper c.typed known (zero pending.work) := zero_proper sound.worked
  exact .pure (Fragment.proper_value (by
    simp [lefts.mono grown, parks.mono grown, rights, swaps, rightRestores, leftRestores, cleared,
      own]) served)

theorem leafThenComposite_meets :
    Meets c labels (effects ++ more) (leafThenComposite pending) (Fragment.Proper c.typed ty) := by
  refine .step (.push fun is => (sound.worked is).usable) fun _ _ => ?_
  refine .step (.acquire? _ _) fun res found => ?_
  cases res with
  | error => exact .step .pop fun _ _ => spill_meets sound
  | ok second =>
    have serves : c.typed → second.Serves pending.left.type.isFloat :=
      fun is => (sound.worked is).ofClass ▸ found.1 second rfl
    refine .bind sound.intoLeft fun afterLeft leftCode _ lefts => ?_
    refine .step (.push fun is => (serves is).usable) fun _ _ => ?_
    refine .before (sound.intoRight serves) fun known rightCode grown rights => ?_
    have second_named : (Operand.reg second).Proper c.typed known := by
      simpa using Register.named_of_serves serves
    refine .step .pop fun _ _ => .step .pop fun _ _ => ?_
    refine .step (sound.apply second_named) fun applied ⟨own, served⟩ => ?_
    exact .pure (Fragment.proper_value (by simp [lefts.mono grown, rights, own]) served)

end

theorem acquireMany?_steady (isFloat : Bool) (size : Int) (count : Nat) :
    Steady c labels (acquireMany? isFloat size count) fun registers? => ∀ registers, registers? = some
      registers → ∀ r ∈ registers, r.Serves isFloat := by
  induction count with
  | zero => exact .pure (by simp)
  | succ count ih =>
    refine .step (.acquire? _ _) fun res found => ?_
    cases res with
    | error => exact .pure (by simp)
    | ok r =>
      have serves := found.1 r rfl
      refine .step (.push fun _ => serves.usable) fun _ _ => .step ih fun registers? rest => ?_
      cases registers? with
      | none => exact .step .pop fun _ _ => .pure (by simp)
      | some registers => exact .pure (by simpa using ⟨serves, rest registers rfl⟩)

/-- The operands of two operators, which need together what the operators do. -/
def FourLeaves.Sound (c : Context) (effects more : List Effect) (leaves : FourLeaves) : Prop :=
  ∃ first second third fourth, leaves.first.Sound c first ∧ leaves.second.Sound c second ∧
    leaves.third.Sound c third ∧ leaves.fourth.Sound c fourth ∧
    effects = first ++ second ∧ more = third ++ fourth

/-- Four leaves in four registers of one class. Without them the operator is spilled. -/
theorem fastPath?_meets (sound : pending.Sound c effects more ty) (leafs : leaves.Sound c effects more) :
    Meets c labels (effects ++ more) (fastPath? pending leaves >>= fun
      | some frag => pure frag
      | none => spill pending) (Fragment.Proper c.typed ty) := by
  obtain ⟨one, two, three, four, first, second, third, fourth, rfl, rfl⟩ := leafs
  simp only [fastPath?]
  cases found : simpleOperations? pending.work leaves with
  | none =>
    rw [pure_bind]
    exact spill_meets sound
  | some operations =>
    obtain ⟨leftOperation, rightOperation⟩ := operations
    obtain ⟨fit, leftFound, rightFound, leftSimple, rightSimple⟩ := simpleOperations?_eq_some found
    obtain ⟨firstValued, secondValued, _⟩ := Operation.ofTypes_classes leftFound
    obtain ⟨thirdValued, fourthValued, _⟩ := Operation.ofTypes_classes rightFound
    have worked : c.typed → pending.work.Serves pending.work.isFloat :=
      fun is => (sound.worked is).ofClass ▸ sound.worked is
    -- A leaf goes into any register of the class.
    have evaluated {leaf : Lowering} {r : Register} {own : List Effect} (leafed : leaf.Sound c own)
        (valued : leaf.type.scalar?.isSome = true)
        (member : leaf ∈ [leaves.first, leaves.second, leaves.third, leaves.fourth])
        (serves : c.typed → r.Serves pending.work.isFloat) {labels : List String} :
        Meets c labels own (leaf.into r) (Code.Proper c.typed) :=
      leafed.into (fun _ => valued) ((fit leaf member).2.1 ▸ serves)
    simp only [bind_assoc]
    refine .step (.push fun is => (sound.worked is).usable) fun _ _ => ?_
    refine .step (acquireMany?_steady _ _ _) fun registers? serve => ?_
    split
    · next second_ third_ fourth_ =>
      have serves (r : Register) (member : r ∈ [second_, third_, fourth_]) :
          c.typed → r.Serves pending.work.isFloat := fun _ => serve _ rfl r member
      have seconds := serves second_ (by simp)
      have thirds := serves third_ (by simp)
      have fourths := serves fourth_ (by simp)
      simp only [bind_assoc, pure_bind, List.append_assoc]
      refine .bind (evaluated first firstValued (by simp) worked) fun l1 firstCode _ first => ?_
      refine .bind (evaluated second secondValued (by simp) seconds) fun l2 secondCode g2 two => ?_
      refine .bind (evaluated third thirdValued (by simp) thirds) fun l3 thirdCode g3 three => ?_
      refine .before (evaluated fourth fourthValued (by simp) fourths) fun known fourthCode g4 four => ?_
      refine .step .pop fun _ _ => .step .pop fun _ _ => .step .pop fun _ _ => .step .pop fun _ _ => ?_
      have named {r : Register} (serves : c.typed → r.Serves pending.work.isFloat) :
          (Operand.reg r).Proper c.typed known := by simpa using Register.named_of_serves serves
      refine .step (apply_steady worked (named seconds) fun _ compared => ?_) fun lefts left => ?_
      · simp [isSimple_compares leftSimple] at compared
      refine .step (apply_steady thirds (named fourths) fun _ compared => ?_) fun rights right => ?_
      · simp [isSimple_compares rightSimple] at compared
      refine .step (sound.apply (named thirds)) fun applied own => .pure ?_
      refine Fragment.proper_value ?_ own.2
      have later := List.Subset.trans g3 g4
      simp [first.mono (List.Subset.trans g2 later), two.mono later, three.mono g4, four, left.1,
        right.1, own.1]
    · simp only [bind_assoc, pure_bind]
      exact .step .pop fun _ _ => spill_meets sound

/-- A binary operator whose type is the result of the operation, where there is one. -/
theorem lowerBinary_meets {leaves : Unit → Option FourLeaves} (lefts : left.Sound c effects)
    (rights : right.Sound c more)
    (leafs : ∀ four, leaves () = some four → four.Sound c effects more)
    (res : c.typed → ∀ oper, Operation.ofTypes left.type op right.type = .ok oper →
      ty = oper.resultType left.type) :
    Meets c labels (effects ++ more) (lowerBinary pos op left right leaves)
      (Fragment.Proper c.typed ty) := by
  refine .ite (fun _ => .refuse rfl) fun _ => ?_
  refine .step (.liftCause (fun _ => id) fun _ _ _ => .inl (by simp [Cause.kind])) fun oper found => ?_
  obtain ⟨leftValued, rightValued, alike, resultValued, class_⟩ := Operation.ofTypes_classes found
  refine .step (.destination (fun _ => resultValued) _) fun dst targeted => ?_
  refine .holding (fun is => (targeted is).usable) ?_
  refine .step (.workFor targeted (fun _ => leftValued) _) fun work worked => ?_
  have pends : Pending.Sound c effects more ⟨pos, left, right, oper, dst, work⟩
      (oper.resultType left.type) :=
    ⟨lefts, rights, ⟨leftValued, rightValued⟩, alike, worked, fun is compared => by
      have serves := targeted is
      rw [← class_, resultClass, compared] at serves
      exact serves, class_⟩
  suffices lowered : Meets c labels (effects ++ more) _
      (Fragment.Proper c.typed (oper.resultType left.type)) from
    lowered.mono fun _ _ proper => proper.retype fun is => ⟨resultValued, by rw [res is oper found]⟩
  refine .ite (fun _ => leftThenLeaf_meets pends) fun _ =>
    .ite (fun _ => leafThenComposite_meets pends) fun _ =>
    .read (fun _ agrees => by simp only [agrees.fastPath]) ?_
  split
  · exact spill_meets pends
  · next four given =>
    refine fastPath?_meets pends (leafs four ?_)
    split at given
    · exact given
    · cases given

end

end Lower
end Nasm64
