import Nasm64.Proofs.Soundness.Meets

/-! Nodes that come to a permitted end whatever is asked of them, and the consumers that ask: values in
registers, addresses, loads and the places of elements and members. -/
namespace Nasm64

open Lower Fragment Code Register

structure Lower.Placed (typed : Prop) (labels : List String) (placed : Code × Located) : Prop where
  code : Code.Proper typed labels placed.1
  address : placed.2.address.Proper typed labels

namespace Lowering

/-- Its place may start from a general register. -/
def Places (c : Context) (effects : List Effect) (place : Option Register → Lower (Code × Located)) :
    Prop :=
  ∀ ⦃labels hint⦄, (c.typed → ∀ register ∈ hint, register.Serves false) →
    Meets c labels effects (place hint) (Placed c.typed)

/-- A node that gives what its type promises. -/
structure Sound (c : Context) (effects : List Effect) (node : Lowering) : Prop where
  value : ∀ {labels}, Meets c labels effects node.value (Fragment.Proper c.typed node.type)
  place : Places c effects node.place

variable {c : Context} {labels : List String} {effects : List Effect} {node : Lowering}
  {dst : Register}

theorem settle_shape (frag : Lowered) (dst : Register) : (settle frag dst).shape ≠ .inline := by
  cases frag with
  | inline | effect => simp [settle, shape]
  | value =>
    simp only [settle]
    split <;> simp [shape]

theorem finish_steady (shaped : c.typed → allowed.contains frag.shape = true) :
    Steady c labels (node.finish allowed frag) fun opnd => opnd = frag.operand? .reg := by
  unfold Lowering.finish Fragment.finish
  refine .liftCause (fun opnd found => ?_) fun is error failed => ?_
  · split at found <;> cases found
    rfl
  · rw [if_pos (shaped is)] at failed
    cases failed

theorem Sound.into (sound : node.Sound c effects) (valued : c.typed → node.type.scalar?.isSome = true)
    (targeted : c.typed → dst.Serves node.type.isFloat) :
    Meets c labels effects (node.into dst) (Proper c.typed) := by
  have prepared : Meets c labels effects (node.prepare dst) fun more frag =>
      Proper c.typed node.type more frag ∧ frag.shape ≠ .inline := by
    refine .ite (fun invalid => .fail fun is => ?_) fun _ => ?_
    · rw [(targeted is).valid] at invalid
      cases invalid
    · refine .step (.push fun is => (targeted is).usable) fun _ _ => ?_
      refine .before sound.value fun more frag _ proper => ?_
      exact .step .pop fun _ _ => .pure ⟨proper.toFits.settle targeted, settle_shape _ _⟩
  refine .before prepared fun more frag _ ⟨proper, settled⟩ => ?_
  refine .step (finish_steady fun is => ?_) fun _ _ => .pure proper.code
  have present := proper.toFits.shape valued is
  cases frag with
  | inline | effect => contradiction
  | value => rfl

section

variable (place : Places c effects node.place)

include place

theorem address_meets : Meets c labels effects node.address (Fits c.typed (.pointer node.type)) := by
  refine .step (.destination (fun _ => rfl) _) fun dst targeted => ?_
  refine .holding (fun is => (targeted is).usable) ?_
  refine .before (place ?_) fun more ⟨code, located⟩ _ placed => ?_
  · rintro is _ ⟨⟩
    exact targeted is
  refine .ite (fun _ => .pure (fits_place placed.address)) fun _ => ?_
  refine .step (.release located) fun _ _ => .pure (proper_value ?_ targeted).toFits
  refine proper_append.mpr ⟨placed.code, ?_⟩
  split
  · simp
  · simpa using ⟨named_of_serves targeted, placed.address⟩

theorem decay_meets : Meets c labels effects node.decay (Proper c.typed (.pointer node.type)) := by
  refine .before (address_meets place) fun more frag _ fits => ?_
  split
  · next opnd =>
    refine .step (.destination (fun _ => rfl) _) fun dst targeted => ?_
    refine .pure (proper_value ?_ targeted)
    simpa using ⟨named_of_serves targeted, fits.operand opnd rfl⟩
  · next other => exact .pure ⟨fits, fun _ opnd same => absurd same (other opnd)⟩

theorem load_meets : Meets c labels effects node.load (Proper c.typed node.type) := by
  refine .ite (fun array => ?_) fun _ => .ite (fun _ => .refuse rfl) fun scalar => ?_
  · refine (decay_meets place).mono fun more frag proper => proper.retype fun _ => ?_
    exact ⟨rfl, (Ty.valued_of_isArray array).2.symm⟩
  · have valued := Ty.valued_of_isScalar (by simpa using scalar)
    refine .step (.destination (fun _ => valued) _) fun dst targeted => ?_
    refine .holding (fun is => (targeted is).usable) ?_
    refine .before (place fun is r hinted => ?_) fun more ⟨code, located⟩ _ placed => ?_
    · split at hinted <;> cases hinted
      next general =>
      have serves := targeted is
      rw [← serves.ofClass, eq_false_of_ne_true general] at serves
      exact serves.resize rfl
    refine .ite (fun _ => .pure (proper_mem placed.address)) fun _ => ?_
    refine .step (.release located) fun _ _ => .pure (proper_value ?_ targeted)
    refine proper_append.mpr ⟨placed.code, move_proper (named_of_serves targeted) ?_⟩
    simpa using placed.address

end

end Lowering

namespace Lower

variable {c : Context} {labels : List String} {effects more : List Effect}
  {node base subscript : Lowering} {hint : Option Register} {pos : Position}

theorem placePointer_meets (sound : node.Sound c effects) (ptr : node.type.isPointer = true)
    (hinted : c.typed → ∀ r ∈ hint, r.Serves false) :
    Meets c labels effects (placePointer node hint) (Placed c.typed) := by
  obtain ⟨valued, general⟩ := Ty.valued_of_isPointer ptr
  -- The pointer goes into a general register, whoever chose it.
  have based {r : Register} (serves : c.typed → r.Serves false) :
      Meets c labels effects (node.into (r.resize 8)) (Proper c.typed) ∧
        (r.resize 8).Named c.typed :=
    ⟨sound.into (fun _ => valued) (fun is => general ▸ (serves is).resize rfl),
      fun is => ((serves is).resize rfl).valid⟩
  unfold placePointer
  split
  · next r found =>
    have serves := fun is => hinted is r (Option.filter_eq_some_iff.mp found).1
    refine .before (based serves).1 fun more code _ proper => ?_
    exact .pure ⟨proper, Address.proper_reg (based serves).2⟩
  · refine .step (.acquire (fun _ => rfl) _) fun r serves => ?_
    refine .step (.push fun _ => serves.usable) fun _ _ => ?_
    refine .before (based fun _ => serves).1 fun more code _ proper => ?_
    exact .pure ⟨proper, Address.proper_reg (based fun _ => serves).2⟩

theorem widenIndex_proper (serves : typed → r.Serves false) (integer : ty.isInteger = true) :
    Proper typed labels (widenIndex r ty) := by
  have sized {size : Int} (pooled : inPool false size = true) :
      (r.resize size).Named typed := fun is => ((serves is).resize pooled).valid
  have pooled := inPool_general (Ty.inPool_registerSize (Ty.valued_of_isInteger integer).1)
  have named := named_of_serves serves
  have half : (r.resize 4).Named typed := sized rfl
  have narrow := sized pooled
  unfold widenIndex
  dsimp only
  repeat' split
  all_goals simp [named, half, narrow]

theorem addIndex_meets (sound : subscript.Sound c effects) (integer : subscript.type.isInteger = true)
    (addr : located.address.Proper c.typed labels) (elementSize : Int64) :
    Meets c labels effects (addIndex located subscript elementSize) (Placed c.typed) := by
  have valued := Ty.valued_of_isInteger integer
  refine .step (.acquire (fun _ => rfl) _) fun r serves => ?_
  refine .step (.push fun _ => serves.usable) fun _ _ => ?_
  have targeted : (r.resize subscript.type.registerSize).Serves subscript.type.isFloat := by
    have pooled := Ty.inPool_registerSize valued.1
    rw [valued.2] at pooled ⊢
    exact serves.resize pooled
  refine .before (sound.into (fun _ => valued.1) fun _ => targeted) fun more code grown proper => ?_
  have named : r.Named c.typed := fun _ => serves.valid
  have scaled : Proper c.typed more (code ++ indexCode r subscript.type elementSize) := by
    have widened : Proper c.typed more (widenIndex r subscript.type) :=
      widenIndex_proper (fun _ => serves) integer
    unfold indexCode
    split <;> simp [proper, widened, named]
  cases found : located.address.index with
  | none =>
    dsimp only
    exact .pure ⟨scaled, (addr.mono grown).indexed named⟩
  | some idx =>
    dsimp only
    refine .step .pop fun _ _ => .pure ⟨?_, addr.mono grown⟩
    have indexed : idx.Named c.typed := addr.index found
    exact proper_append.mpr ⟨scaled, by simp [indexed, named]⟩

theorem placeBase_meets (sound : base.Sound c effects) : Lowering.Places c effects (placeBase base) :=
  fun _ _ hinted =>
    .ite (fun ptr => placePointer_meets sound ptr hinted) fun _ => sound.place hinted

/-- A constant subscript is not evaluated, so it must not need anything. -/
theorem placeElement_meets (sound : base.Sound c effects) (subscripted : subscript.Sound c more)
    {const : Option Int64} (free : const.isSome → more = []) :
    Lowering.Places c (effects ++ more) (placeElement pos base subscript const) := by
  intro labels hint hinted
  refine .ite (fun _ => .refuse rfl) fun _ => .bind (placeBase_meets sound hinted) ?_
  intro known placed _ proper
  refine .ite (fun _ => .refuse rfl) fun integer => ?_
  cases const with
  | some idx =>
    rw [free rfl]
    exact .pure ⟨proper.code, proper.address.advance _⟩
  | none =>
    refine .before (addIndex_meets subscripted (by simpa using integer) proper.address _) ?_
    intro further indexed grown added
    exact .pure ⟨proper_append.mpr ⟨proper.code.mono grown, added.code⟩, added.address⟩

theorem placeMember_meets (sound : base.Sound c effects) (field : String) :
    Lowering.Places c effects (placeMember pos base field) := by
  intro labels hint hinted
  refine .before (placeBase_meets sound hinted) fun known placed _ proper => ?_
  cases found : (Expr.record base.type).field? field with
  | some field =>
    simp only [found]
    exact .pure ⟨proper.code, proper.address.advance _⟩
  | none =>
    simp only [found]
    exact .refuse rfl

end Lower
end Nasm64
