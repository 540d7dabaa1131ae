import Nasm64.Proofs.Soundness.Node

/-! Literals, variables, addresses, casts and prefix operators of sound nodes. -/
namespace Nasm64

open Fragment Code Conversion

namespace Conversion

/-- Whether a kind of conversion starts from a float, and whether it gives one. -/
def Kind.classes : Kind → Bool × Bool
  | review | signExtend | zeroExtend | stagedExtend => (false, false)
  | floatToFloat => (true, true)
  | integerToFloat => (false, true)
  | floatToInteger => (true, false)

theorem standard_classes : ∀ entry ∈ standard,
    (entry.source.isFloat, entry.target.isFloat) = entry.rule.kind.classes := by decide

theorem inPool_bytes (scalar : Scalar) : Register.inPool scalar.isFloat scalar.bytes = true := by
  cases scalar with
  | prim primitive => cases primitive <;> rfl
  | ptr => rfl

/-- Only an operand without code is converted on the spot. -/
theorem apply_register_shape (src dst : Scalar) (rule : Rule) (r dest : Register) :
    (apply src dst rule (.register r) dest).shape = .value := by
  unfold apply
  split <;> rfl

variable {typed : Prop} {labels : List String} {src dst : Scalar} {rule : Rule}
  {origin : Source} {dest : Register} {ty : Ty}

theorem settleFloat_proper (sized : typed → (dest.resize dst.bytes).Serves ty.isFloat) :
    (settleFloat dst dest).Proper typed labels := by
  have named := Register.named_of_serves sized
  have float : Register.floatScratch.Named typed := fun _ => rfl
  simp [settleFloat, named, float]

section

variable (opnd : origin.operand.Proper typed labels)
  (sized : typed → (dest.resize dst.bytes).Serves ty.isFloat)

include opnd sized

theorem extend_proper (wide : (dest.resize 8).Named typed) (narrow : (dest.resize 4).Named typed) :
    Proper typed ty labels (extend src dst rule origin dest) := by
  have named := Register.named_of_serves sized
  have half : (Register.scratch.resize 4).Named typed := fun _ => rfl
  unfold extend
  split
  · exact proper_imm _
  · refine proper_value ?_ sized
    split
    · split <;> simp [opnd, wide, narrow, half]
    · split <;> simp [opnd, narrow, named]

theorem integerToFloat_proper :
    Proper typed ty labels (integerToFloat src dst rule origin dest) := by
  have settled : (settleFloat dst dest).Proper typed labels := settleFloat_proper sized
  have half : (Register.scratch.resize 4).Named typed := fun _ => rfl
  have whole : Register.scratch.Named typed := fun _ => rfl
  have float : Register.floatScratch.Named typed := fun _ => rfl
  refine proper_value ?_ sized
  split
  · simp [settled, whole, float]
  · split
    · split <;> simp [opnd, settled, half, float]
    · split <;> simp [opnd, settled, half, whole, float]

theorem floatToInteger_proper (wide : (dest.resize 8).Named typed)
    (narrow : (dest.resize 4).Named typed) :
    Proper typed ty labels (floatToInteger src dst rule origin dest) := by
  have named := Register.named_of_serves sized
  have half : (Register.scratch.resize 4).Named typed := fun _ => rfl
  have float : Register.floatScratch.Named typed := fun _ => rfl
  refine proper_value (proper_append.mpr ⟨?_, ?_⟩) sized
  · split <;> simp [opnd, float]
  · split
    · simp [named, float]
    · split <;> simp [wide, narrow, half, float]

end

/-- The code of a rule names registers of the classes that it converts between. -/
theorem apply_proper (listed : (⟨src, dst, rule⟩ : Entry Scalar Rule) ∈ standard)
    (opnd : origin.operand.Proper typed labels)
    (held : typed → ∀ r, origin = .register r → r.Serves src.isFloat)
    (targeted : typed → dest.Serves dst.isFloat) (same : dst.isFloat = ty.isFloat) :
    Proper typed ty labels (apply src dst rule origin dest) := by
  have sized : typed → (dest.resize dst.bytes).Serves ty.isFloat :=
    fun is => same ▸ (targeted is).resize (inPool_bytes dst)
  have wide := Register.named_resize_eight fun is => (targeted is).usable
  have narrow : (dest.resize 4).Named typed :=
    Register.named_of_serves fun is => (targeted is).resize (by cases dst.isFloat <;> rfl)
  unfold apply
  split
  · next kind =>
    have classes := standard_classes _ listed
    rw [kind] at classes
    cases origin with
    | constant => exact proper_imm _
    | memory => exact proper_mem (by simpa [Source.operand] using opnd)
    | register r =>
      -- Only general registers are read again at another width.
      refine proper_value proper_nil fun is => ?_
      have serves := held is r rfl
      have pooled := inPool_bytes dst
      rw [(Prod.mk.inj classes).1] at serves
      rw [← same, (Prod.mk.inj classes).2]
      rw [(Prod.mk.inj classes).2] at pooled
      exact serves.resize pooled
  · exact extend_proper opnd sized wide narrow
  · exact extend_proper opnd sized wide narrow
  · exact extend_proper opnd sized wide narrow
  · have float : Register.floatScratch.Named typed := fun _ => rfl
    have settled : (settleFloat dst dest).Proper typed labels := settleFloat_proper sized
    exact proper_value (by simp [opnd, settled, float]) sized
  · exact integerToFloat_proper opnd sized
  · exact floatToInteger_proper opnd sized wide narrow

end Conversion

namespace Lower

variable {c : Context} {labels : List String} {effects : List Effect} {node : Lowering} {ty : Ty}
  {pos : Position} {dst : Register}

theorem lowerFloat_meets (v : Double) (ty : Ty) :
    Meets c labels [] (lowerFloat v ty) (Proper c.typed ty) :=
  .before (.addFloat _ _) fun _ _ _ known => .pure (proper_mem (Address.proper_atLabel.mpr known))

theorem lowerNumber_meets (v : Int64) :
    Meets c labels [] (lowerNumber pos v ty) (Proper c.typed ty) :=
  .ite (fun _ => lowerFloat_meets _ ty) fun _ => .ite (fun _ => .refuse rfl) fun _ => .pure (proper_imm _)

theorem lowerString_meets (text : String) :
    Meets c labels [] (lowerString pos text) (Proper c.typed (.pointer (.prim .u8))) := by
  refine .step (.destination (fun _ => rfl) _) fun dst targeted => ?_
  refine .before (.addString text) fun more label _ known => .pure (proper_value ?_ targeted)
  simpa [known] using Register.named_of_serves targeted

theorem lowerVariable_meets
    (declared : c.typed → ∀ found, c.scope.lookup name = some found → found.isStruct = false →
      ty = found) :
    Meets c labels [.found name] (lowerVariable pos name) (Fragment.Proper c.typed ty) := by
  refine .before (.lookup _ _) fun more slot _ ⟨_, found⟩ => ?_
  refine .ite (fun array => ?_) fun _ => .ite (fun _ => .refuse rfl) fun _ => ?_
  · refine .step (.destination (fun _ => (Ty.valued_of_isArray array).1) _) fun dst targeted => ?_
    have named := Register.named_of_serves targeted
    refine .pure (Fragment.proper_value (by simp [named]) fun is => ?_)
    have plain : slot.type.isStruct = false := by
      cases known : slot.type <;> simp_all [Ty.isArray, Ty.isStruct]
    rw [declared is _ (found is) plain]
    exact targeted is
  · exact .pure (Fragment.proper_mem (Address.proper_frameSlot _))

section

variable (sound : node.Sound c effects) (targeted : c.typed → dst.Serves false)

include sound targeted

theorem lowerAddressOfValue_meets :
    Meets c labels (.reserved ⟨Int64.ofInt node.type.registerSize, node.type.align⟩ :: effects)
      (lowerAddressOfValue pos node dst) (Proper c.typed (.pointer node.type)) := by
  refine .ite (fun _ => .refuse rfl) fun scalar => ?_
  have valued := Ty.valued_of_isScalar (by simpa using scalar)
  have pooled := Ty.inPool_registerSize valued
  refine Proceeds.bind (.reserve _ _) fun known offset _ _ => ?_
  -- The value is stored from a register of its class.
  have stored (temporary : Register) (serves : c.typed → temporary.Serves node.type.isFloat) :
      Meets c known effects (do
        let code ← node.into temporary
        return .value (code ++
          store (.mem node.type.registerSize (.frameSlot offset)) temporary ++
          [.lea dst (.frameSlot offset)]) dst)
        (Proper c.typed (.pointer node.type)) := by
    refine .before (sound.into (fun _ => valued) serves) fun more code _ proper => ?_
    have kept : Proper c.typed more
        (store (.mem node.type.registerSize (.frameSlot offset)) temporary) :=
      store_proper (by simp) (Register.named_of_serves serves)
    exact .pure (proper_value (by simp [proper, kept, Register.named_of_serves targeted])
      targeted)
  refine .ite (fun float => ?_) fun general => ?_
  · refine .step (.acquire (fun _ => float ▸ pooled) _) fun temporary serves => ?_
    exact stored temporary fun _ => float ▸ serves
  · rw [eq_false_of_ne_true general] at pooled stored
    rw [pure_bind]
    exact stored _ fun is => (targeted is).resize pooled

theorem lowerAddressOfPlace_meets :
    Meets c labels effects (lowerAddressOfPlace node dst) (Proper c.typed (.pointer node.type)) := by
  have named := Register.named_of_serves targeted
  refine .before (Lowering.address_meets sound.place) fun more frag _ fits => ?_
  refine .step (Lowering.finish_steady fun is => ?_) fun opnd same => ?_
  · have present := fits.shape (fun _ => rfl) is
    cases frag with
    | inline | value => rfl
    | effect => contradiction
  subst same
  cases frag with
  | inline place =>
    exact .pure (proper_value (by simp [named, fits.operand place rfl]) targeted)
  | value code src =>
    have before : Proper c.typed more code := fits.code
    have sourced : src.Named c.typed := fun is => (fits.register is code src rfl).valid
    refine .pure (proper_value (proper_append.mpr ⟨before, ?_⟩) targeted)
    split <;> simp [named, sourced]
  | effect code => exact .pure (proper_value fits.code targeted)

end

theorem lowerAddressOf_meets {isDeref isPlace : Bool} (sound : node.Sound c effects)
    (nested : isDeref = true → node.nested = node.address ∧ isPlace = true) :
    Meets c labels (if isPlace then effects else .reserved
      ⟨Int64.ofInt node.type.registerSize, node.type.align⟩ :: effects)
      (lowerAddressOf pos node isDeref isPlace) (Proper c.typed (.pointer node.type)) := by
  refine .step (.destination (fun _ => rfl) _) fun dst targeted => ?_
  refine .ite (fun deref => ?_) fun _ => .holding (fun is => (targeted is).usable) ?_
  · rw [(nested deref).1, if_pos (nested deref).2]
    exact .before (Lowering.address_meets sound.place) fun more frag _ fits =>
      .pure (fits.settle targeted)
  · split
    · exact lowerAddressOfPlace_meets sound targeted
    · exact lowerAddressOfValue_meets sound targeted

theorem warnCast_steady (pos : Position) (src dst : Ty) :
    Steady c labels (warnCast pos src dst) fun _ => True := by
  refine .ite (fun _ => ?_) fun _ => .ite (fun _ => .warn _ _ _) fun _ => .ite (fun _ => ?_) fun _ => ?_
  all_goals exact .ite (fun _ => .warn _ _ _) fun _ => .pure ⟨rfl, trivial⟩

/-- Where a conversion starts: at an operand that is proper, and behind code only in a register. -/
theorem conversionSource_steady (proper : Proper c.typed node.type labels nested)
    (valued : c.typed → node.type.scalar?.isSome = true) :
    Steady c labels (conversionSource node nested) fun origin =>
        origin.operand.Proper c.typed labels ∧
      (c.typed → ∀ r, origin = .register r → r.Serves node.type.isFloat) ∧
      (nested.code ≠ [] → ∃ r, origin = .register r) := by
  cases nested with
  | inline opnd =>
    have fits := proper.operand opnd rfl
    cases opnd with
    | imm v => exact .pure ⟨by simp [Source.operand], by simp, by simp [code,
        Emission.nothing]⟩
    | mem size addr => exact .pure ⟨by simpa [Source.operand] using fits, by simp,
        by simp [code, Emission.nothing]⟩
    | reg | place | symbol =>
      refine .fail fun is => ?_
      have := proper.plain is _ rfl
      simp at this
  | value code r =>
    have serves := fun is => proper.register is code r rfl
    refine .pure ⟨?_, ?_, fun _ => ⟨r, rfl⟩⟩
    · simpa [Source.operand] using Register.named_of_serves serves
    · rintro is _ ⟨⟩
      exact serves is
  | effect code => exact .fail fun is => absurd rfl (proper.toFits.shape valued is)

/-- Code is only put in front of a conversion that has code of its own. -/
theorem finishCast_steady {src : Ty} {inner : Lowered} {origin : Source}
    (found : between src ty = .ok rule) (code : Proper c.typed labels inner.code)
    (opnd : origin.operand.Proper c.typed labels)
    (held : c.typed → ∀ r, origin = .register r → r.Serves src.isFloat)
    (behind : inner.code ≠ [] → ∃ r, origin = .register r)
    (targeted : c.typed → dst.Serves ty.isFloat) :
    Meets c labels [] (finishCast pos src ty rule dst inner origin) (Proper c.typed ty) := by
  obtain ⟨given, wanted, sourced, aimed, listed⟩ := between_listed found
  have converted := convert_eq found origin dst
  rw [sourced, aimed] at converted
  simp only [Option.getD_some] at converted
  have class_ : src.isFloat = given.isFloat ∧ ty.isFloat = wanted.isFloat := by
    simp [Ty.isFloat_eq, sourced, aimed]
  have proper := apply_proper listed opnd (class_.1 ▸ held) (class_.2 ▸ targeted)
    class_.2.symm
  obtain ⟨whole, prepended, ends⟩ := proper.prepend? code fun nonempty => by
    obtain ⟨r, rfl⟩ := behind nonempty
    exact apply_register_shape _ _ _ _ _
  have finished : Meets c labels [] (do
      warnCast pos src ty
      return whole) (Proper c.typed ty) :=
    .step (warnCast_steady _ _ _) fun _ _ => .pure ends
  unfold finishCast
  simp only [converted, liftCause, pure_bind, prepended]
  exact .ite (fun _ => .step (.touch _) fun _ _ => finished) fun _ => finished

theorem lowerCast_meets (sound : node.Sound c effects) :
    Meets c labels effects (lowerCast pos node ty) (Proper c.typed ty) := by
  refine .ite (fun same => ?_) fun _ => .ite (fun _ => .refuse rfl) fun scalars => ?_
  · simp only [Bool.and_eq_true, beq_iff_eq] at same
    refine sound.value.mono fun _ _ proper => proper.retype fun _ => ⟨same.1, ?_⟩
    rw [Ty.isFloat_eq, Ty.isFloat_eq, same.2]
  · have valued : ty.scalar?.isSome = true ∧ node.type.scalar?.isSome = true := by
      simp only [Bool.or_eq_true, Bool.not_eq_true', not_or, Bool.not_eq_false] at scalars
      exact ⟨Ty.valued_of_isScalar scalars.1, scalars.2.elim Ty.valued_of_isScalar fun array =>
        (Ty.valued_of_isArray array).1⟩
    refine .step (.liftCause (fun _ => id) fun _ _ _ => .inl (by simp [Cause.kind]))
      fun rule found => ?_
    refine .step (.destination (fun _ => valued.1) _) fun dst targeted => ?_
    refine .holding (fun is => (targeted is).usable) ?_
    refine .step (.workFor targeted (fun _ => valued.2) _) fun stage staged => ?_
    refine .step (.push fun is => (staged is).usable) fun _ _ => ?_
    refine .before sound.value fun more inner _ proper => .step .pop fun _ _ => ?_
    refine .step (conversionSource_steady proper fun _ => valued.2) fun origin ⟨opnd, held, behind⟩ => ?_
    exact finishCast_steady found proper.code opnd held behind targeted

theorem unaryCode_proper (named : dst.Named typed) : Proper typed labels (unaryCode op dst).1 := by
  have float : Register.floatScratch.Named typed := fun _ => rfl
  unfold unaryCode
  split
  · simp [named]
  · simp [named]
  · split <;> simp [named, float]

section

variable (sound : node.Sound c effects)

include sound

theorem lowerUnaryValue_meets (valued : node.type.scalar?.isSome = true ∧ ty.scalar?.isSome = true)
    (same : node.type.isFloat = ty.isFloat) (op : UnaryOperator) :
    Meets c labels effects (lowerUnaryValue pos op node ty) (Proper c.typed ty) := by
  refine .step (.destination (fun _ => valued.2) _) fun dst targeted => ?_
  refine .before (sound.into (fun _ => valued.1) fun is => same ▸ targeted is) ?_
  intro more code _ proper
  have ended : Proper c.typed ty more (.value (code ++ (unaryCode op dst).1) dst) :=
    proper_value (proper_append.mpr
      ⟨proper, unaryCode_proper (Register.named_of_serves targeted)⟩) targeted
  exact .ite (fun _ => .step (.touch _) fun _ _ => .pure ended) fun _ => .pure ended

/-- An operand that is folded away must not need anything. -/
theorem lowerNegate_meets {const : Option Constant} (free : const.isSome → effects = []) :
    Meets c labels effects (lowerNegate pos node const) (Proper c.typed node.type) := by
  refine .ite (fun _ => .refuse rfl) fun numeric => ?_
  have valued : node.type.scalar?.isSome = true := by
    cases ty : node.type <;> simp_all [Ty.isInteger, Ty.isFloat, Ty.scalar?]
  have computed : Meets c labels effects
      (lowerUnaryValue pos .negate node node.type) (Proper c.typed node.type) :=
    lowerUnaryValue_meets sound ⟨valued, valued⟩ rfl .negate
  cases const with
  | none => exact computed
  | some const =>
    rw [free rfl] at computed ⊢
    refine .ite (fun _ => lowerFloat_meets _ _) fun _ => ?_
    cases const with
    | word v => exact lowerNumber_meets v
    | float => exact computed

theorem lowerNot_meets {lit : Option Bool} (free : lit.isSome → effects = []) :
    Meets c labels effects (lowerNot pos node lit) (Proper c.typed (.prim .bool)) := by
  refine .ite (fun _ => .refuse rfl) fun bool => ?_
  have valued : node.type.scalar?.isSome = true ∧ node.type.isFloat = (Ty.prim .bool).isFloat :=
    Ty.valued_of_isBool (by simpa using bool)
  cases lit with
  | none => exact lowerUnaryValue_meets sound ⟨valued.1, rfl⟩ valued.2 .not
  | some =>
    rw [free rfl]
    exact .pure (proper_imm _)

theorem lowerComplement_meets {lit : Option Int64} (free : lit.isSome → effects = []) :
    Meets c labels effects (lowerComplement pos node lit) (Proper c.typed node.type) := by
  refine .ite (fun _ => .refuse rfl) fun integer => ?_
  have valued := (Ty.valued_of_isInteger (by simpa using integer)).1
  cases lit with
  | none => exact lowerUnaryValue_meets sound ⟨valued, valued⟩ rfl .complement
  | some =>
    rw [free rfl]
    exact lowerNumber_meets _

end

end Lower
end Nasm64
