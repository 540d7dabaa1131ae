import Mathlib.Algebra.Order.Ring.Int
import Mathlib.Data.List.Perm.Subperm
import Nasm64.Proofs.Call.Arguments
import Nasm64.Proofs.Emission.Node

/-! The emission of calls. -/
namespace Nasm64

namespace Family

def volatiles : List Family :=
  [rax, rcx, rdx, r8, r9, r10, r11, float 0, float 1, float 2, float 3, float 4, float 5]

theorem mem_volatiles (overwritten : fam.isVolatile = true) : fam ∈ volatiles := by
  cases fam with
  | xmm idx => revert idx; decide
  | unknown code => cases overwritten
  | _ => revert overwritten; decide

theorem isVolatile_of_mem (mem : fam ∈ volatiles) : fam.isVolatile = true := by
  revert fam
  decide

end Family

namespace Lower

variable {env : Env} {frame next : Frame}

namespace Frame

def addLive (kept : List Family) (live : List Register) (register : Register) : List Register :=
  if !register.family.isVolatile || kept.contains register.family || live.any register.aliases then
    live
  else live ++ [register.resize 8]

variable {kept : List Family}

theorem mem_foldl_addLive {held : List Register} {r : Register}
    (mem : r ∈ held.foldl (addLive kept) live) :
    r ∈ live ∨ (r.family.isVolatile = true ∧ r.family ∉ kept) ∧ r.size = 8 := by
  induction held generalizing live with
  | nil => exact .inl mem
  | cons first rest ih =>
    rcases ih mem with earlier | found
    · unfold addLive at earlier
      split at earlier
      · exact .inl earlier
      · rename_i taken
        rcases List.mem_append.mp earlier with earlier | new
        · exact .inl earlier
        · obtain rfl := List.mem_singleton.mp new
          simp only [Bool.or_eq_true, Bool.not_eq_true', not_or] at taken
          exact .inr ⟨⟨by simpa using taken.1.1, by simpa using taken.1.2⟩, rfl⟩
    · exact .inr found

theorem foldl_addLive_keeps {held : List Register} (mem : r ∈ live) :
    r ∈ held.foldl (addLive kept) live := by
  induction held generalizing live with
  | nil => exact mem
  | cons first rest ih =>
    refine ih ?_
    unfold addLive
    split
    · exact mem
    · exact List.mem_append_left _ mem

theorem foldl_addLive_covers {held : List Register} {r : Register} (mem : r ∈ held)
    (overwritten : r.family.isVolatile = true) (other : r.family ∉ kept) :
    ∃ saved ∈ held.foldl (addLive kept) live, saved.family = r.family := by
  induction held generalizing live with
  | nil => cases mem
  | cons first rest ih =>
    rcases List.mem_cons.mp mem with rfl | mem
    · cases seen : live.any r.aliases with
      | true =>
        obtain ⟨saved, earlier, same⟩ := List.any_eq_true.mp seen
        have equal : r.family = saved.family := by simpa [Register.aliases] using same
        exact ⟨saved, foldl_addLive_keeps earlier, equal.symm⟩
      | false =>
        have taken : r.resize 8 ∈ addLive kept live r := by
          simp [addLive, seen, overwritten, other]
        refine ⟨r.resize 8, ?_, rfl⟩
        rw [List.foldl_cons]
        exact foldl_addLive_keeps taken
    · exact ih mem

theorem foldl_addLive_nodup {held live : List Register} (distinct : (live.map Register.family).Nodup) :
    ((held.foldl (addLive kept) live).map Register.family).Nodup := by
  induction held generalizing live with
  | nil => exact distinct
  | cons first rest ih =>
    refine ih ?_
    unfold addLive
    split
    · exact distinct
    · rename_i taken
      simp only [Bool.or_eq_true, List.any_eq_true, not_or, not_exists, not_and] at taken
      rw [List.map_append, List.map_singleton, List.nodup_append]
      refine ⟨distinct, by simp, ?_⟩
      intro fam earlier other new same
      obtain ⟨saved, mem, rfl⟩ := List.mem_map.mp earlier
      obtain rfl := List.mem_singleton.mp new
      exact taken.2 saved mem (by simpa [Register.aliases] using same.symm)

/-- A call saves at most one register for each family that it may overwrite. -/
theorem liveVolatile_length (frame : Frame) (kept : List Family) :
    (frame.liveVolatile kept).length ≤ 13 := by
  have distinct : ((frame.liveVolatile kept).map Register.family).Nodup :=
    foldl_addLive_nodup (by simp)
  have listed : (frame.liveVolatile kept).map Register.family ⊆ Family.volatiles := by
    intro fam mem
    obtain ⟨r, saved, rfl⟩ := List.mem_map.mp mem
    rcases mem_foldl_addLive saved with none | ⟨⟨overwritten, _⟩, _⟩
    · cases none
    · exact Family.mem_volatiles overwritten
  simpa [Family.volatiles] using (distinct.subperm listed).length_le

theorem mem_liveVolatile {r : Register} (saved : r ∈ frame.liveVolatile kept) :
    r.family.isVolatile = true ∧ r.size = 8 :=
  (mem_foldl_addLive saved).elim (fun none => by cases none) fun found => ⟨found.1.1, found.2⟩

/-- Whatever a call overwrites is saved, unless nothing relies on it or it is not wanted. -/
theorem volatile_saved {fam : Family} (overwritten : fam.isVolatile = true) :
    frame.mayChange kept fam ∨ ∃ r ∈ frame.liveVolatile kept, fam = r.family := by
  by_cases res : fam ∈ kept
  · exact .inl (mayChange_result res)
  · cases used : frame.inUse fam with
    | false => exact .inl (.inl used)
    | true =>
      obtain ⟨held, mem, rfl⟩ := inUse_iff.mp used
      obtain ⟨saved, live, same⟩ : ∃ saved ∈ frame.liveVolatile kept, saved.family = held.family :=
        foldl_addLive_covers (List.mem_reverse.mpr mem) overwritten res
      exact .inr ⟨saved, live, same.symm⟩

end Frame

/-- The registers that arguments travel in are among those that a callee may overwrite. -/
theorem resolve_volatile (resolved : Call.resolve types isExternal = .ok slots) (mem : slot ∈ slots)
    (placed : slot.place = .register r pair) :
    r.family.isVolatile = true ∧ ∀ general, pair = some general →
      general.family.isVolatile = true := by
  obtain ⟨passing, paired⟩ := Call.resolve_isPassing resolved mem placed
  refine ⟨(Bool.and_eq_true _ _ |>.mp passing).2, ?_⟩
  rintro general rfl
  exact (Bool.and_eq_true _ _ |>.mp paired).2

section

variable {area : Area} {depth : Int64} {inner : Nat} {changes : Family → Prop}

theorem accumulatorFor_volatile (ty : Ty) : (accumulatorFor ty).family.isVolatile = true := by
  unfold accumulatorFor
  split <;> rfl

theorem argumentStore_bracketed (narrow : 0 ≤ size ∧ size ≤ 8) (slot : idx < area.count) :
    Bracketed env depth (some area) inner changes (store (.mem size (argumentSlot idx)) src) :=
    by
  unfold store
  split
  · exact .staged (floatMove_isMove _) narrow slot
  · exact .staged rfl narrow slot

theorem accumulatorFor_narrow (valid : (accumulatorFor ty).valid = true) :
    0 ≤ (accumulatorFor ty).size ∧ (accumulatorFor ty).size ≤ 8 := by
  unfold accumulatorFor at valid ⊢
  cases float : ty.isFloat with
  | true =>
    simp only [if_true, Register.resize_size]
    refine scalar_narrow ?_
    cases ty <;> first | rfl | cases float
  | false =>
    simp only [float, Bool.false_eq_true, if_false, Register.resize_size] at valid ⊢
    simp only [Register.valid, Register.accumulator, Register.resize, Family.hasView,
      Bool.or_eq_true, beq_iff_eq] at valid
    omega

theorem stageCode_bracketed (valid : (accumulatorFor src).valid = true) (slot : idx < area.count)
    (overwrites : ∀ fam, fam.isVolatile = true → changes fam) :
    Bracketed env depth (some area) inner changes (stageCode idx src ty) := by
  simp only [stageCode]
  split
  · rename_i widens
    have float : ty.isFloat = true := (Bool.and_eq_true _ _ |>.mp widens).1
    have narrow : 0 ≤ ty.registerSize ∧ ty.registerSize ≤ 8 := by
      refine scalar_narrow ?_
      cases ty <;> first | rfl | cases float
    have ord := Family.isOrdinary_of_isVolatile (accumulatorFor_volatile src)
    have converting : Quiet [(accumulatorFor src).family]
        [.binary .cvtss2sd (.reg (accumulatorFor src)) (.reg (accumulatorFor src))] :=
      .binary (by decide) ord (by simp)
    refine (converting.bracketed fun fam mem => ?_).append (argumentStore_bracketed narrow slot)
    obtain rfl := List.mem_singleton.mp mem
    exact overwrites _ (accumulatorFor_volatile src)
  · exact argumentStore_bracketed (accumulatorFor_narrow valid) slot

theorem stageCode_callFree (spared : ∀ fam, fam.isCalleeSaved = false → changes fam) :
    CallFree changes (stageCode idx src ty) := by
  simp only [stageCode]
  split
  · exact .cons (.binary (by decide)
      (spared _ (Family.isCalleeSaved_of_isVolatile (accumulatorFor_volatile src))))
      (store_callFree _ _ _)
  · exact store_callFree _ _ _

/-- Arguments are evaluated and stored one after another, in an area with a slot for each. -/
theorem stageArguments_sends
    (orderly : List.Forall₂ (fun argument calls =>
      argument.1.Orderly env inner calls) arguments each)
    (ordinary : frame.Ordinary) (slots : index + arguments.length ≤ area.count)
    (idle : ∀ family, frame.mayChange [] family → changes family)
    (overwrites : ∀ family, family.isVolatile = true → changes family) (results : List Family)
    (run : Yields (stageArguments index arguments) env frame stage next) :
    frame.Kept next ∧ Bracketed env frame.depth (some area) inner changes stage ∧
      Accounts frame.touched results each.flatten stage next.touched := by
  induction orderly generalizing index frame stage with
  | nil =>
    obtain ⟨rfl, rfl⟩ := yields_pure.mp run
    exact ⟨.refl _, .nil, .nil (.refl _)⟩
  | @cons argument calls rest each first _ ih =>
    obtain ⟨argument, ty⟩ := argument
    simp only [stageArguments, yields_bind, yields_pure, yields_stageArgument] at run
    obtain ⟨_, middle, ⟨evaluation, evaluated, rfl⟩, others, _, staged, rfl, rfl⟩ := run
    have accumulates := accumulatorFor_volatile argument.type
    have sends := first.into_sends ordinary evaluated (Family.isOrdinary_of_isVolatile accumulates)
    have kept : frame.Kept middle := sends.grown
    obtain ⟨valid, _⟩ := Lowering.yields_into.mp evaluated
    simp only [List.length_cons] at slots
    obtain ⟨after, bracketed, accounts⟩ := ih sends.ordinary (by omega)
      (fun family changed => idle family (Frame.mayChange_mono kept.covers (by simp) changed)) staged
    rw [kept.depth] at bracketed
    refine ⟨kept.trans after, Bracketed.append (Bracketed.append ?_ ?_) bracketed, ?_⟩
    · refine (sends.bracketed.inArea _).mono (Nat.le_refl _) fun family changed => ?_
      rcases changed with unused | scratch | result
      · exact idle family (.inl unused)
      · exact idle family (.inr (.inl scratch))
      · obtain rfl := List.mem_singleton.mp result
        exact overwrites _ accumulates
    · exact stageCode_bracketed valid (by omega) overwrites
    · have here : Accounts frame.touched results calls evaluation middle.touched :=
        sends.accounts.absorb (by simpa using .of_volatile accumulates)
      exact (here.ending (stageCode_callFree fun _ => .of_not_saved)).append accounts

theorem loadLane_quiet
    (lanes : ∀ {r pair}, slot.place = .register r pair → r.family.isVolatile = true ∧
      ∀ general, pair = some general → general.family.isVolatile = true) :
    Quiet Family.volatiles (loadLane slot) := by
  unfold loadLane
  split
  · exact .nil
  · rename_i r pair placed
    obtain ⟨overwritten, paired⟩ := lanes placed
    refine Quiet.append ((move_quiet _ (Family.isOrdinary_of_isVolatile overwritten)).mono ?_) ?_
    · intro fam mem
      obtain rfl := List.mem_singleton.mp mem
      exact Family.mem_volatiles overwritten
    · cases pair with
      | none => exact .nil
      | some general =>
        exact .binary (by decide) (Family.isOrdinary_of_isVolatile (paired general rfl))
          (Family.mem_volatiles (paired general rfl))

end

theorem emitCall_gives
    (orderly : List.Forall₂ (fun arg calls => arg.1.Orderly env nested calls) args each)
    (ord : frame.Ordinary) (receives : ∀ r, dst = some r → frame.Receives r)
    (resolved : Call.resolve types sig.isExternal = .ok slots)
    (fits : nested + env.areaBound args.length + 104 ≤ weight)
    (run : Yields (emitCall sig args slots dst) env frame frag next) :
    frame.Produces env weight frag next ∧
      Accounts frame.touched (families dst) (each.flatten ++ [some sig.label]) frag.code
        next.touched := by
  obtain ⟨_, saved, live, area, reserved, staging, after, staged, rfl, rfl⟩ :=
    yields_emitCall run
  have overwrites : ∀ fam, fam.isVolatile = true →
      frame.mayChange (families dst) fam ∨ ∃ r ∈ saved, fam = r.family :=
    live ▸ fun _ => Frame.volatile_saved
  have few : saved.length ≤ 13 := live ▸ frame.liveVolatile_length _
  have volatile : ∀ r ∈ saved, r.family.isVolatile = true :=
    fun r mem => (Frame.mem_liveVolatile (live ▸ mem)).1
  subst reserved
  have inside : ((frame.saved saved.length).deepened
      (env.areaAt (frame.saved saved.length).depth args.length)).Ordinary := ord
  obtain ⟨kept, stages, arguing⟩ : _ ∧ Bracketed env ((frame.saved saved.length).depth +
      env.areaAt (frame.saved saved.length).depth args.length)
      (some ⟨(frame.saved saved.length).depth, args.length⟩) nested
      (fun fam => frame.mayChange (families dst) fam ∨
        ∃ r ∈ saved, fam = r.family) staging ∧ _ :=
    stageArguments_sends orderly inside (Nat.le_of_eq (Nat.zero_add _))
      (fun fam changed => .inl (Frame.mayChange_mono (.refl frame) (by simp) changed)) overwrites
      (families dst) staged
  have lanes : Quiet Family.volatiles (slots.flatMap loadLane) :=
    .flatMap fun slot mem => loadLane_quiet fun placed => resolve_volatile resolved mem placed
  have copies : Quiet (families dst) (resultCode sig.result dst) := by
    cases dst with
    | none => exact .nil
    | some r => exact moveRegister_quiet (receives r rfl).ordinary
  have calls := @Bracketed.call env ⟨(frame.saved saved.length).depth, args.length⟩ nested _
    sig.label overwrites
  have body := ((stages.append (lanes.bracketed fun fam mem =>
    overwrites fam (Family.isVolatile_of_mem mem))).append calls).append
    (copies.bracketed fun fam mem => .inl (Frame.mayChange_result mem))
  have whole : Bracketed env frame.depth none weight (frame.mayChange (families dst))
      (saveCode saved ++ reservedCode (env.areaAt (frame.saved saved.length).depth args.length)
        (areaCode sig slots dst staging) ++ restoreCode saved) := by
    have called : .call sig.label ∈ areaCode sig slots dst staging := by
      simp [areaCode]
    exact Bracketed.savedAll (fun r mem => Family.isOrdinary_of_isVolatile
      (volatile r mem)) (by omega) (.reserved (Nat.le_refl _) called body)
  have stack : Excused after.touched (families dst) .rsp := .of_not_saved rfl
  have spared : ∀ r ∈ saved, Excused after.touched (families dst) r.family :=
    fun r mem => .of_volatile (volatile r mem)
  have loads : CallFree (Excused after.touched (families dst)) (slots.flatMap loadLane) :=
    lanes.callFree fun fam mem => .of_volatile (Family.isVolatile_of_mem mem)
  have calling : Accounts after.touched (families dst) [some sig.label]
      [.call sig.label] after.touched :=
    ⟨.refl _, by simp [Line.call, Line.writes], rfl, by simp [Line.call, Line.isStraight]⟩
  have called := (arguing.ending loads).append calling |>.ending (copies.callFree fun _ => .result)
  have accounts := (called.reserved (env.areaAt (frame.saved saved.length).depth
    args.length)).leading (saveCode_callFree stack spared) |>.ending
    (restoreCode_callFree stack spared)
  refine ⟨⟨Frame.Kept.restored (Frame.Kept.raised kept), ?_⟩, ?_⟩
  · cases dst with
    | none => exact whole
    | some r => exact ⟨receives r rfl, whole⟩
  · cases dst with
    | none => exact accounts
    | some r => exact accounts

theorem lowerCall_orderly {inner : Nat}
    (orderly : List.Forall₂ (fun argument calls => argument.Orderly env inner calls) arguments each)
    (fits : inner + env.areaBound arguments.length + 104 ≤ weight) :
    Orderly env weight (each.flatten ++
      [(env.table.lookup name (arguments.map Lowering.type)).toOption.map Signature.label])
      (lowerCall pos name arguments) := by
  intro frame fragment next ordinary run
  obtain ⟨signature, found, _, _, types, rfl, slots, resolved, tgt, start, chosen, emitted⟩ :=
    yields_lowerCall run
  have same : (arguments.zip (signature.argumentTypes (arguments.map Lowering.type))).map Prod.fst =
      arguments := List.map_fst_zip (by simp [Signature.argumentTypes])
  have paired : List.Forall₂ (fun argument calls => argument.1.Orderly env inner calls)
      (arguments.zip (signature.argumentTypes (arguments.map Lowering.type))) each :=
    List.forall₂_map_left_iff.mp (same.symm ▸ orderly)
  rw [← same, List.length_map] at fits
  rw [found]
  rcases yields_resultTarget.mp chosen with ⟨_, rfl, rfl⟩ | ⟨_, r, rfl, given⟩
  · obtain ⟨produces, accounts⟩ := emitCall_gives paired ordinary (by simp) resolved fits emitted
    exact ⟨produces, accounts.absorb (by simp [families])⟩
  · have chosen := destination_chosen ordinary given
    have receiving := chosen.receives.kept chosen.kept
    obtain ⟨produces, accounts⟩ := emitCall_gives paired (ordinary.kept chosen.kept)
      (by rintro _ ⟨⟩; exact receiving) resolved fits emitted
    refine .of_kept chosen.kept chosen.notes ⟨produces, accounts.absorb fun family member => ?_⟩
    obtain rfl := List.mem_singleton.mp member
    exact chosen.kept.top ▸ chosen.excused.later accounts.notes

end Lower
end Nasm64
