import Nasm64.Proofs.Emission.Node

/-! The emission of literals, casts and the operators in front of an operand. -/
namespace Nasm64.Lower

open Lower.Frame

variable {env : Env} {frame start next : Frame} {weight : Nat} {calls : List (Option String)}
  {frag : Lowered} {node : Lowering} {pos : Position} {ty : Ty} {dst : Register}

theorem lowerFloat_orderly (v : Double) : Orderly env weight [] (lowerFloat v ty) := by
  intro frame frag next _ run
  obtain ⟨rfl, rfl⟩ := yields_lowerFloat.mp run
  exact .inline ⟨rfl, rfl, rfl, rfl, Nat.add_comm _ _⟩ (.refl _)

theorem lowerNumber_orderly (v : Int64) : Orderly env weight [] (lowerNumber pos v ty) := by
  intro frame frag next ord run
  rcases yields_lowerNumber.mp run with ⟨_, floated⟩ | ⟨_, _, rfl, rfl⟩
  · exact lowerFloat_orderly _ ord floated
  · exact .inline (.refl _) (.refl _)

theorem lowerString_orderly (text : String) : Orderly env weight [] (lowerString pos text) := by
  intro frame frag next ord run
  obtain ⟨dst, start, given, rfl, rfl⟩ := yields_lowerString.mp run
  obtain ⟨kept, receives, notes, excused⟩ := destination_chosen ord given
  have chosen : frame.Chosen dst { start with data := (start.data.addString text).2 } :=
    ⟨kept.trans ⟨rfl, rfl, rfl, rfl, Nat.add_comm _ _⟩, receives, notes, excused⟩
  exact chosen.loads ord

theorem lowerVariable_orderly (name : String) : Orderly env weight [] (lowerVariable pos name) := by
  intro frame frag next ord run
  obtain ⟨slot, _, outcome⟩ := yields_lowerVariable.mp run
  have referred : frame.Kept (frame.refer slot) := (Kept.refl _).refer slot
  have notes : Notes frame.touched (frame.refer slot).touched := .of_eq refer_touched
  rcases outcome with ⟨_, dst, given, rfl⟩ | ⟨_, _, rfl, rfl⟩
  · have started := ord.kept referred
    exact .of_kept referred notes ((destination_chosen started given).loads started)
  · exact .inline referred notes

section

variable (orderly : node.Orderly env weight calls)

include orderly

theorem lowerUnaryValue_orderly : Orderly env weight calls (lowerUnaryValue pos op node ty) := by
  intro frame frag next ord run
  obtain ⟨dst, start, given, code, after, evaluated, rfl, rfl⟩ := yields_lowerUnaryValue.mp run
  have chosen := destination_chosen ord given
  have evaluates := orderly.into_sends (ord.kept chosen.kept) evaluated chosen.receives.ordinary
  have quiet := unaryCode_quiet op chosen.receives.ordinary
  cases uses : (unaryCode op dst).2 with
  | true =>
    rw [uses] at quiet
    refine chosen.gives_target ((evaluates.touch _).quiet quiet fun fam mem => ?_)
    rcases List.mem_cons.mp mem with rfl | scratch
    · exact .result (by simp)
    · exact .floatScratch scratch
  | false =>
    rw [uses] at quiet
    exact chosen.gives_target (evaluates.quiet quiet fun _ => .result)

/-- A minus in front of a constant is not evaluated, so the constant must not call anything. -/
theorem lowerNegate_orderly (free : const.isSome → calls = []) :
    Orderly env weight calls (lowerNegate pos node const) := by
  intro frame frag next ord run
  obtain ⟨_, ⟨folded, known, outcome⟩ | ⟨_, computed⟩⟩ := yields_lowerNegate.mp run
  · have constants : const.isSome := by
      cases const with
      | none => simp [foldedNegation] at known
      | some const => rfl
    rw [free constants]
    rcases outcome with ⟨_, floated⟩ | ⟨_, v, _, numbered⟩
    · exact lowerFloat_orderly _ ord floated
    · exact lowerNumber_orderly _ ord numbered
  · exact lowerUnaryValue_orderly orderly ord computed

theorem lowerNot_orderly (free : lit.isSome → calls = []) :
    Orderly env weight calls (lowerNot pos node lit) := by
  intro frame frag next ord run
  obtain ⟨_, ⟨v, known, rfl, rfl⟩ | ⟨_, computed⟩⟩ := yields_lowerNot.mp run
  · rw [free (by simp [known])]
    exact .inline (.refl _) (.refl _)
  · exact lowerUnaryValue_orderly orderly ord computed

theorem lowerComplement_orderly (free : lit.isSome → calls = []) :
    Orderly env weight calls (lowerComplement pos node lit) := by
  intro frame frag next ord run
  obtain ⟨_, ⟨v, known, numbered⟩ | ⟨_, computed⟩⟩ := yields_lowerComplement.mp run
  · rw [free (by simp [known])]
    exact lowerNumber_orderly _ ord numbered
  · exact lowerUnaryValue_orderly orderly ord computed

theorem lowerAddressOfValue_sends (ord : frame.Ordinary) (usable : dst.family.isOrdinary = true)
    (run : Yields (lowerAddressOfValue pos node dst) env frame frag next) :
    ∃ code, frag = .value code dst ∧ frame.Sends env weight [dst.family] [] calls code next := by
  obtain ⟨scalar, offset, reserved, placed, temporary, start, chosen, code, evaluated, rfl⟩ :=
    yields_lowerAddressOfValue run
  have reserving : frame.Sends env weight [dst.family] [] [] [] reserved := by
    simp only [Frame.reserve, Prod.mk.injEq] at placed
    obtain ⟨_, rfl⟩ := placed
    exact (Sends.nil ord).silent ⟨rfl, rfl, rfl, rfl, Nat.add_comm _ _⟩ (.refl _)
  obtain ⟨started, working, permits⟩ : frame.Sends env weight [dst.family] [] [] [] start ∧
      temporary.family.isOrdinary = true ∧ frame.Permits start [dst.family] temporary.family := by
    rcases chosen with ⟨_, found, rfl⟩ | ⟨_, rfl, rfl⟩
    · have fresh := free_fresh found
      exact ⟨reserving.touch _, fresh.ordinary, .fresh (reserving.grown.covers.unused fresh.unused)⟩
    · exact ⟨reserving, usable, .result (by simp)⟩
  obtain ⟨evaluates, _⟩ := orderly.then_into started (Nat.le_refl _) evaluated working permits
  have storing : Quiet [] (store (.mem node.type.registerSize (.frameSlot offset)) temporary) :=
    store_quiet offset (scalar_narrow scalar)
  have loading : Quiet [dst.family] [.lea dst (.frameSlot offset)] :=
    .binary (by decide) usable (by simp)
  exact ⟨_, rfl, (evaluates.quiet storing (by simp)).quiet loading fun _ => .result⟩

theorem lowerAddressOfPlace_sends (ord : frame.Ordinary) (usable : dst.family.isOrdinary = true)
    (innermost : ∃ top, frame.held.head? = some top ∧ top.family = dst.family)
    (run : Yields (lowerAddressOfPlace node dst) env frame frag next) :
    ∃ code, frag = .value code dst ∧ frame.Sends env weight [dst.family] [] calls code next := by
  obtain ⟨inner, addressed, shaped, rfl⟩ := yields_lowerAddressOfPlace run
  obtain ⟨top, head, same⟩ := innermost
  have sends := (Lowering.address_orderly orderly.place ord addressed).sends ord head same
  refine ⟨_, rfl, ?_⟩
  cases inner with
  | inline place =>
    have copying : Quiet [dst.family] (addressCopy dst (.inline place)) :=
      addressCopy_quiet usable rfl
    exact sends.quiet copying fun _ => .result
  | value code src =>
    have copying : Quiet [dst.family] (if src.name == dst.name then ([] : Code)
        else [.mov (.reg dst) (.reg src)]) := by
      split
      · exact .nil
      · exact .binary (by decide) usable (by simp)
    exact sends.quiet copying fun _ => .result
  | effect code => exact absurd rfl shaped

theorem lowerAddressOf_orderly
    (general : ∀ {start code r after}, start.Ordinary → isDeref = true →
      Yields node.nested env start (.value code r) after → r.isFloat = false) :
    Orderly env weight calls (lowerAddressOf pos node isDeref isPlace) := by
  intro frame frag next ord run
  obtain ⟨dst, start, given, outcome⟩ := yields_lowerAddressOf run
  have chosen := destination_chosen ord given
  have started := ord.kept chosen.kept
  have receiving := chosen.receives.kept chosen.kept
  have usable := chosen.receives.ordinary
  rcases outcome with ⟨deref, inner, nested, rfl⟩ | ⟨_, after, rfl, computed⟩
  · have gives := orderly.nested started nested
    have moves : ∀ {code}, Quiet [dst.family] code →
        Bracketed env start.depth none weight (start.mayChange [dst.family]) code :=
      fun quiet => quiet.bracketed fun _ => mayChange_result
    obtain ⟨last, quiet, same⟩ := settle_code inner usable
    have excused := chosen.kept.top ▸ chosen.excused.later gives.accounts.notes
    refine .of_kept chosen.kept chosen.notes ⟨⟨gives.kept, ?_⟩, same ▸ gives.accounts.ending
      (quiet.callFree (by simpa using excused))⟩
    clear same
    cases inner with
    | inline opnd => exact ⟨receiving, moves (move_quiet opnd usable)⟩
    | effect code => exact gives.emits
    | value code src =>
      obtain ⟨received, bracketed⟩ := gives.emits
      simp only [settle]
      split
      · exact ⟨received, bracketed⟩
      · rename_i differs
        -- A pointer that is not in the target came in a register that nothing relies on: an
        -- innermost register of the same class would have been the target.
        have unused : start.inUse src.family = false := by
          rcases received.innermost with ⟨top, head, same⟩ | unused
          · have ptr : top.isFloat = false := by
              rw [← general started deref nested, Register.isFloat, same, Register.isFloat]
            have outer : frame.held.head? = some top := by
              have held : start.held = frame.held := chosen.kept.held
              rw [← held, head]
            have dst := destination_innermost given outer ptr
            exact absurd (by simp [Register.aliases, dst, same]) differs
          · exact unused
        refine ⟨receiving, (bracketed.widen rfl (.refl _) (Nat.le_refl _) fun fam mem => ?_).append
          (moves (moveRegister_quiet usable))⟩
        obtain rfl := List.mem_singleton.mp mem
        exact .inl unused
  · obtain ⟨code, rfl, sends⟩ : ∃ code, frag = .value code dst ∧
        (start.hold dst).Sends env weight [dst.family] [] calls code after := by
      rcases computed with ⟨_, placed⟩ | ⟨_, valued⟩
      · exact lowerAddressOfPlace_sends orderly (started.hold usable) usable
          receiving.hold_innermost placed
      · exact lowerAddressOfValue_sends orderly (started.hold usable) usable valued
    exact chosen.gives_target (sends.unhold started fun _ => .result)

end

/-- What the operand of a conversion leaves for it: nothing, or code with its value in the
destination or in a register that nothing relies on. -/
def Frame.Supplies (frame : Frame) (env : Env) (weight : Nat) (target : Register) : Lowered → Prop
  | .inline _ => True
  | .value code register => register.family.isOrdinary = true ∧
      (register.family = target.family ∨ frame.inUse register.family = false) ∧
      Bracketed env frame.depth none weight (frame.mayChange [register.family]) code
  | .effect _ => False

theorem prepend?_value (before lines : Code) (r : Register) :
    Fragment.prepend? before (.value lines r : Lowered) = some (.value (before ++ lines) r) := by
  cases before with
  | nil => rfl
  | cons line rest => rfl

theorem converted_gives (chosen : frame.Chosen dst start) (plain : rule.mnemonic ≠ .xchg)
    (found : conversionSource? size nested = some origin)
    (converted : convertedCode src ty rule origin dst nested = some frag)
    (supplies : start.Supplies env weight dst nested)
    (sends : start.Sends env weight [dst.family] [] calls nested.code next)
    (scratch : ∀ fam ∈ conversionScratch rule.kind, start.Permits next [dst.family] fam) :
    frame.Gives env weight calls frag next := by
  have usable := chosen.receives.ordinary
  unfold convertedCode at converted
  generalize outcome : Conversion.apply (src.scalar?.getD .ptr) (ty.scalar?.getD .ptr) rule
    origin dst = converts at converted
  have shape : Converted origin dst (conversionScratch rule.kind) converts :=
    outcome ▸ apply_converted plain usable
  cases shape with
  | inline =>
    simp only [Fragment.prepend?] at converted
    split at converted
    · rename_i nothing
      cases converted
      rw [List.isEmpty_iff.mp nothing] at sends
      exact chosen.gives_inline sends
    · cases converted
  | computed same quiet =>
    rw [prepend?_value] at converted
    cases converted
    have whole := sends.quiet quiet fun fam mem =>
      (List.mem_cons.mp mem).elim (fun here => .result (by simp [here])) (scratch fam)
    exact chosen.gives (same ▸ whole) ⟨same ▸ usable, .inl same⟩
  | kept given same =>
    rw [prepend?_value] at converted
    cases converted
    subst given
    cases nested with
    | inline opnd => cases opnd <;> cases found
    | effect code => cases found
    | value code r =>
      cases found
      obtain ⟨ord, place, bracketed⟩ := supplies
      refine ⟨⟨chosen.kept.trans sends.grown, (Receives.congr ⟨ord, ?_⟩ same).of_kept
        chosen.kept, ?_⟩, ?_⟩
      · rcases place with here | unused
        · exact here ▸ (chosen.receives.kept chosen.kept).innermost
        · exact .inr unused
      · rw [same, List.append_nil]
        exact bracketed.widen chosen.kept.depth chosen.kept.covers (Nat.le_refl _)
          fun _ => mayChange_result
      · rw [Fragment.code, List.append_nil]
        exact chosen.accounts sends (.inl rfl)

/-- The scratch registers of a conversion are noted when they have to be. -/
theorem touchScratch_permits (next : Frame) (mem : fam ∈ conversionScratch kind) :
    frame.Permits (next.touchScratch kind) results fam := by
  cases uses : usesFloatScratch kind with
  | true =>
    rw [conversionScratch, uses] at mem
    rw [touchScratch, uses]
    exact .floatScratch mem
  | false =>
    rw [conversionScratch, uses] at mem
    obtain rfl := List.mem_singleton.mp mem
    exact .scratch

theorem lowerCast_orderly (orderly : node.Orderly env weight calls) :
    Orderly env weight calls (lowerCast pos node ty) := by
  intro frame frag next ord run
  rcases yields_lowerCast.mp run with ⟨_, _, valued⟩ | ⟨_, _, _, rule, known, dst, start, given,
    stage, mid, works, inner, after, valued, origin, src, converted, warned, noted, rfl⟩
  · exact orderly.value ord valued
  have chosen := destination_chosen ord given
  have started := ord.kept chosen.kept
  have holds := (Covers.refl start).hold dst
  obtain ⟨staged, accepts⟩ := workFor_accepts weight [stage.family]
    (started.hold chosen.receives.ordinary) chosen.receives.ordinary works
  have gives := orderly.value (staged.ordinary.push accepts.ordinary) valued
  have inside := (gives.sends (staged.ordinary.push accepts.ordinary) rfl rfl).under_push staged.ordinary
  obtain ⟨warnings, warns⟩ := warnCast_runs pos node.type ty env
    (after.pop.touchScratch rule.kind)
  obtain ⟨_, rfl⟩ := noted.unique warns
  have notes : Notes after.touched (after.pop.touchScratch rule.kind).touched := by
    unfold touchScratch
    split
    · exact .touch after.pop _
    · exact .refl _
  have touched : after.pop.Kept { after.pop.touchScratch rule.kind with warnings } := by
    unfold touchScratch
    split
    · exact ((Kept.refl _).touch _).trans ⟨rfl, rfl, rfl, rfl, Nat.add_comm _ _⟩
    · exact ⟨rfl, rfl, rfl, rfl, Nat.add_comm _ _⟩
  have silent := (staged.inside inside (Nat.le_refl _) fun _ => .result).silent touched notes
  have supplied := silent.unhold started fun fam mem => by
    obtain rfl := List.mem_singleton.mp mem
    exact (accepts.outside holds (inside.accounts.notes.trans notes)).permits
  have covers := staged.grown.covers.trans holds
  refine converted_gives chosen (Conversion.between_lawful known) src converted ?_ supplied
    fun fam mem => ?_
  · cases inner with
    | inline opnd => trivial
    | effect code => cases src
    | value code r =>
      obtain ⟨received, bracketed⟩ := gives.emits
      refine ⟨received.ordinary, ?_, bracketed.widen (by simp [staged.grown.depth])
        (covers.push stage) (Nat.le_refl _) fun _ => mayChange_result⟩
      rcases received.under_push with same | unused
      · exact same ▸ (accepts.place.imp id fun place => holds.unused place.1)
      · exact .inr (covers.unused unused)
  · exact (touchScratch_permits after.pop mem).later (.of_eq unhold_touched)

end Nasm64.Lower
