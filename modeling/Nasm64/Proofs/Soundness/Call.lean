import Nasm64.Proofs.Emission.Call
import Nasm64.Proofs.Soundness.Binary

/-! Calls with sound arguments. Arguments and results travel in registers of their class. -/
namespace Nasm64

open Code Fragment

theorem Family.isUsable_of_isVolatile {fam : Family} (volatile : fam.isVolatile = true) :
    fam.isUsable = true := by
  cases fam <;> first | rfl | cases volatile

theorem Ty.valued_of_plain {ty : Ty} (struct : ty.isStruct = false) (void : ty.isVoid = false) :
    ty.scalar?.isSome = true := by
  cases ty with
  | prim | pointer | array => rfl
  | void => cases void
  | struct => cases struct

theorem Call.resultRegister?_serves (valued : ty.scalar?.isSome = true) (other : Register) :
    ((Call.resultRegister? ty).getD other).Serves ty.isFloat := by
  cases ty with
  | prim primitive => cases primitive <;> exact ⟨rfl, rfl, rfl⟩
  | pointer | array => exact ⟨rfl, rfl, rfl⟩
  | void | struct => cases valued

namespace Lower

variable {typed : Prop} {c : Context} {labels : List String} {args : List (Lowering × Ty)}
  {own : List (List Effect)} {arg : Lowering} {sig : Signature} {ty : Ty} {slots : List Call.Slot}
  {dst : Option Register} {pos : Position}

theorem stageCode_proper (valued : typed → arg.type.scalar?.isSome = true)
    (travels : arg.type.Travels ty) (idx : Nat) :
    Proper typed labels (stageCode idx arg.type ty) := by
  have serves := fun is => serves_accumulatorFor (valued is)
  have named := Register.named_of_serves serves
  unfold stageCode
  dsimp only
  split
  · next widened =>
    have float := (Bool.and_eq_true _ _ |>.mp widened).1
    have wide : ((accumulatorFor arg.type).resize ty.registerSize).Named typed := by
      intro is
      have pooled := Ty.inPool_registerSize (Ty.valued_of_isFloat float)
      exact ((serves is).resize (travels.isFloat ▸ pooled)).valid
    rw [proper_cons]
    exact ⟨by simp [named], store_proper (by simp [argumentSlot]) wide⟩
  · exact store_proper (by simp [argumentSlot]) named

/-- An argument with what it needs. -/
structure Handed (c : Context) (passed : Lowering × Ty) (effects : List Effect) : Prop where
  sound : passed.1.Sound c effects
  valued : c.typed → passed.1.type.scalar?.isSome = true
  travels : passed.1.type.Travels passed.2

theorem stageArguments_meets (idx : Nat) (each : List.Forall₂ (Handed c) args own) :
    Meets c labels own.flatten (stageArguments idx args) (Proper c.typed) := by
  induction each generalizing idx labels with
  | nil => exact .pure proper_nil
  | @cons passed effects rest others handed _ ih =>
    have staged : Meets c labels effects (stageArgument idx passed.1 passed.2) (Proper c.typed) := by
      refine .before (handed.sound.into handed.valued fun is => serves_accumulatorFor (handed.valued is)) ?_
      intro more code _ proper
      exact .pure (proper_append.mpr ⟨proper, stageCode_proper handed.valued handed.travels idx⟩)
    refine .bind staged fun more code _ proper => ?_
    refine .before (ih (idx + 1)) fun further rest grown others => .pure ?_
    exact proper_append.mpr ⟨proper.mono grown, others⟩

theorem loadLane_proper (resolved : Call.resolve types sig.isExternal = .ok slots)
    (mem : slot ∈ slots) : Proper typed labels (loadLane slot) := by
  unfold loadLane
  split
  · exact proper_nil
  · next r pair placed =>
    obtain ⟨passing, paired⟩ := Call.resolve_isPassing resolved mem placed
    have named : r.Named typed := fun _ => (Bool.and_eq_true _ _ |>.mp passing).1
    refine proper_append.mpr ⟨move_proper named (by simp [argumentSlot]), ?_⟩
    split
    · next general =>
      have copied : general.Named typed := fun _ => (Bool.and_eq_true _ _ |>.mp paired).1
      simp [copied, argumentSlot]
    · exact proper_nil

theorem areaCode_proper (resolved : Call.resolve types sig.isExternal = .ok slots)
    (targeted : typed → ∀ r ∈ dst, r.Serves sig.result.isFloat ∧ sig.result.scalar?.isSome = true)
    (staged : Proper typed labels stage) : Proper typed labels (areaCode sig slots dst stage) := by
  have loads : Proper typed labels (slots.flatMap loadLane) :=
    proper_flatMap fun slot mem => loadLane_proper resolved mem
  have returns : Proper typed labels (resultCode sig.result dst) := by
    cases dst with
    | none => exact proper_nil
    | some r =>
      exact moveRegister_proper (fun is => (targeted is r rfl).1) fun is =>
        Call.resultRegister?_serves (targeted is r rfl).2 _
  simp [areaCode, staged, loads, returns]

theorem serves_liveVolatile {frame : Frame} {r : Register} (saved : r ∈ frame.liveVolatile kept) :
    r.Serves r.isFloat := by
  obtain ⟨volatile, whole⟩ := Frame.mem_liveVolatile saved
  exact ⟨Family.isUsable_of_isVolatile volatile, rfl, whole ▸ Register.inPool_eight _⟩

/-- A call leaves its result in the target, and nothing without one. -/
theorem emitCall_meets (each : List.Forall₂ (Handed c) args own)
    (resolved : Call.resolve types sig.isExternal = .ok slots)
    (targeted : c.typed → ∀ r ∈ dst, r.Serves sig.result.isFloat ∧ sig.result.scalar?.isSome = true)
    (void : dst = none → sig.result.isVoid = true) :
    Meets c labels own.flatten (emitCall sig args slots dst) (Proper c.typed sig.result) := by
  refine .read (fun _ agrees => by simp only [agrees.stackAlignment, agrees.shadowSpace]) ?_
  refine .get (fun _ _ => rfl) fun frame _ => ?_
  have serves := fun r (mem : r ∈ frame.liveVolatile
    (dst.elim [] fun r => [r.family])) (_ : c.typed) => serves_liveVolatile mem
  generalize frame.liveVolatile _ = saved at serves
  have saves : Steady c labels (saved.mapM savePush) (· = saved.map pushCode) :=
    .silent _ ⟨fun _ _ _ => yields_mapM_savePush.mpr ⟨rfl, rfl⟩, fun _ _ => rfl, fun _ => rfl,
      fun _ => rfl⟩ fun _ => ⟨rfl, rfl, rfl⟩
  have restores (labels : List String) : Steady c labels (saved.reverse.mapM restorePop)
      (· = saved.reverse.map popCode) :=
    .silent _ ⟨fun _ _ _ => yields_mapM_restorePop.mpr ⟨rfl, rfl⟩, fun _ _ => rfl, fun _ => rfl,
      fun _ => rfl⟩ fun _ => ⟨rfl, rfl, rfl⟩
  refine .step saves fun saving savings => .ite (fun zero => .throw ⟨rfl, by simpa using zero⟩) fun _ => ?_
  refine .get (fun _ _ => rfl) fun frame _ => ?_
  refine .step (.modify ⟨fun _ _ _ => rfl, fun _ _ => rfl, fun _ => rfl, fun _ => rfl⟩
    fun _ => ⟨rfl, rfl⟩) fun _ _ => ?_
  refine .before (stageArguments_meets 0 each) fun more stage _ staged => ?_
  refine .step (.modify ⟨fun _ _ _ => rfl, fun _ _ => rfl, fun _ => rfl, fun _ => rfl⟩
    fun _ => ⟨rfl, rfl⟩) fun _ _ => ?_
  refine .step (restores _) fun restoring restorings => ?_
  have stack : Register.stackPointer.Named c.typed := fun _ => rfl
  have inside := areaCode_proper resolved targeted staged
  have before : Proper c.typed more (saveCode saved) := saveCode_proper serves
  have after : Proper c.typed more (restoreCode saved) := restoreCode_proper serves
  have whole (bytes : Int64) : Proper c.typed more
      (saveCode saved ++ reservedCode bytes (areaCode sig slots dst stage) ++ restoreCode saved) := by
    simp [reservedCode, before, inside, after, stack]
  subst savings restorings
  cases dst with
  | none => exact .pure (proper_effect (whole _) fun _ => void rfl)
  | some r => exact .pure (proper_value (whole _) fun is => (targeted is r rfl).1)

/-- A call whose type is the result of the method that it means, if it means one. -/
theorem lowerCall_meets {args : List Lowering}
    (sound : List.Forall₂ (fun arg effects => arg.Sound c effects) args own)
    (valued : c.typed → ∀ arg ∈ args, arg.type.isVoid = false)
    (res : c.typed → ∀ sig, c.env.table.lookup name (args.map Lowering.type) = .ok sig →
      ty = sig.result) :
    Meets c labels own.flatten (lowerCall pos name args) (Proper c.typed ty) := by
  refine .read (fun _ agrees => by simp only [agrees.table]) ?_
  refine .step (.liftCause (fun _ => id) fun _ _ _ => .inl (by simp [Cause.kind])) fun sig found => ?_
  cases search : args.find? fun arg => arg.type.isStruct with
  | some arg => exact .refuse rfl
  | none =>
    refine .ite (fun _ => .refuse rfl) fun struct => ?_
    have struct : sig.result.isStruct = false := eq_false_of_ne_true struct
    refine .step (.liftCause (fun _ => id) fun _ _ _ => .inl (by simp [Cause.kind])) fun slots
      resolved => ?_
    have each : List.Forall₂ (Handed c) (args.zip (sig.argumentTypes (args.map Lowering.type))) own := by
      obtain ⟨count, sound⟩ := List.forall₂_iff_zip.mp sound
      refine List.forall₂_iff_zip.mpr ⟨by simp [Signature.argumentTypes, count], fun {passed effects} mem => ?_⟩
      obtain ⟨idx, found⟩ := List.mem_iff_getElem?.mp mem
      obtain ⟨both, needed⟩ := List.getElem?_zip_eq_some.mp found
      obtain ⟨given, travels⟩ := List.getElem?_zip_eq_some.mp both
      have listed := List.mem_iff_getElem?.mpr ⟨idx, given⟩
      refine ⟨sound (List.mem_iff_getElem?.mpr ⟨idx, List.getElem?_zip_eq_some.mpr ⟨given, needed⟩⟩),
        fun is => ?_, Signature.argumentTypes_travel (by simp [given]) travels⟩
      have plain : passed.1.type.isStruct = false := by
        simpa using List.find?_eq_none.mp search passed.1 listed
      exact Ty.valued_of_plain plain (valued is passed.1 listed)
    have emitted {dst : Option Register}
        (targeted : c.typed → ∀ r ∈ dst, r.Serves sig.result.isFloat ∧
          sig.result.scalar?.isSome = true)
        (void : dst = none → sig.result.isVoid = true) :
        Meets c labels own.flatten (emitCall sig (args.zip (sig.argumentTypes
          (args.map Lowering.type))) slots dst) (Proper c.typed ty) :=
      (emitCall_meets each resolved targeted void).mono fun _ _ proper =>
        proper.congr fun is => (res is sig found).symm
    unfold resultTarget
    split
    · next void =>
      rw [pure_bind]
      exact emitted (by simp) fun _ => void
    · next present =>
      have valued := Ty.valued_of_plain struct (eq_false_of_ne_true present)
      simp only [map_eq_pure_bind, bind_assoc, pure_bind]
      refine .step (.destination (fun _ => valued) _) fun dst targeted => emitted ?_ (by simp)
      rintro is _ ⟨⟩
      exact ⟨targeted is, valued⟩

end Lower
end Nasm64
