import Nasm64.Proofs.Pressure.Basic
import Nasm64.Proofs.Soundness.Statement

/-! The slots that a run hands out, in order. -/
namespace Nasm64.Lower

variable {α β : Type} {env : Env} {frame next : Frame}

/-- A run hands out these slots. It is cut into the steps that take a slot and the parts between
them, which leave the position of the frame alone. -/
inductive HandsOut (env : Env) : {α : Type} → Lower α → Frame → List FrameSlot → α → Frame → Prop
  | nothing {α : Type} {x : Lower α} {frame next : Frame} {value : α}
    (run : Yields x env frame value next) (still : next.position = frame.position) :
    HandsOut env x frame [] value next
  | reserved {size align offset : Int64} {frame next : Frame}
    (run : Yields (reserve size align) env frame offset next) :
    HandsOut env (reserve size align) frame [⟨⟨size, align⟩, offset⟩] offset next
  | allocated {name : String} {ty : Ty} {slot : Variable} {frame next : Frame}
    (run : Yields (allocate name ty) env frame slot next) :
    HandsOut env (allocate name ty) frame [⟨.ofType ty, slot.offset⟩] slot next
  | bind {α β : Type} {x : Lower α} {k : α → Lower β} {frame middle next : Frame}
    {slots more : List FrameSlot} {value : α} {result : β}
    (first : HandsOut env x frame slots value middle)
    (rest : HandsOut env (k value) middle more result next) :
    HandsOut env (x >>= k) frame (slots ++ more) result next

namespace HandsOut

variable {x : Lower α} {slots : List FrameSlot} {v : α}

/-- What comes last takes no slots. -/
theorem before {k : α → Lower β} {mid : Frame} (first : HandsOut env x frame slots v mid)
    (run : Yields (k v) env mid res next) (still : next.position = mid.position) :
    HandsOut env (x >>= k) frame slots res next := by
  have whole := first.bind (.nothing run still)
  rwa [List.append_nil] at whole

/-- Slots are laid where exact arithmetic puts them, as long as it stays within `2 ^ 62`. -/
theorem laid (hands : HandsOut env x frame slots v next) (natural : 0 ≤ frame.position.toInt)
    (fits : Need.extent frame.position.toInt (slots.map (·.toNeed)) ≤ 2 ^ 62) :
    next.position.toInt = Need.extent frame.position.toInt (slots.map (·.toNeed)) ∧
      FrameSlot.Laid frame.position.toInt slots := by
  induction hands with
  | nothing _ still => exact ⟨by rw [still]; rfl, trivial⟩
  | reserved run =>
    obtain ⟨placed, same⟩ := Frame.reserve_place (yields_reserve.mp run) natural fits
    exact ⟨by rw [same]; exact placed, placed, trivial⟩
  | allocated run =>
    rename_i name ty slot frame next
    have allocated := yields_allocate.mp run
    have pos : next.position = slot.offset := by
      simp only [Frame.allocate, Frame.reserve, Prod.mk.injEq] at allocated
      obtain ⟨rfl, rfl⟩ := allocated
      split <;> rfl
    have reserved : frame.reserve ty.size ty.align =
        (slot.offset, { frame with position := slot.offset }) := by
      simp only [Frame.allocate, Frame.reserve, Prod.mk.injEq] at allocated ⊢
      obtain ⟨rfl, _⟩ := allocated
      split <;> exact ⟨rfl, rfl⟩
    obtain ⟨placed, _⟩ := Frame.reserve_place reserved natural fits
    exact ⟨by rw [pos]; exact placed, placed, trivial⟩
  | bind _ _ first rest =>
    rename_i frame _ _ slots more _ _ _ _
    rw [List.map_append, Need.extent_append] at fits ⊢
    have start := Need.le_extent frame.position.toInt (slots.map (·.toNeed))
    have mid := Need.le_extent (Need.extent frame.position.toInt (slots.map (·.toNeed)))
      (more.map (·.toNeed))
    obtain ⟨reached, laid⟩ := first natural (by omega)
    rw [← reached] at fits start ⊢
    obtain ⟨ended, further⟩ := rest (by omega) fits
    exact ⟨ended, laid.append (reached ▸ further)⟩

end HandsOut

def Provides (x : Lower α) (needs : List Need) : Prop :=
  ∀ ⦃env frame value next⦄, Yields x env frame value next →
    ∃ slots, HandsOut env x frame slots value next ∧ slots.map (·.toNeed) = needs

namespace Provides

variable {x : Lower α} {k : α → Lower β} {needs more : List Need}

theorem of_still
    (still : ∀ ⦃env frame v next⦄, Yields x env frame v next → next.position = frame.position) :
    Provides x [] :=
  fun _ _ _ _ run => ⟨[], .nothing run (still run), rfl⟩

theorem of_idle (idle : Idle x) : Provides x [] := .of_still fun _ _ _ _ => idle.still

theorem pure (v : α) : Provides (Pure.pure v) [] := .of_idle (.pure v)

theorem modify (still : ∀ frame, (change frame).position = frame.position) :
    Provides (modify change) [] := .of_still fun _ frame _ _ run => yields_modify.mp run ▸ still frame

theorem bind (first : Provides x needs) (rest : ∀ v, Provides (k v) more) :
    Provides (x >>= k) (needs ++ more) := by
  intro env frame res next run
  obtain ⟨v, mid, ran, continued⟩ := yields_bind.mp run
  obtain ⟨slots, hands, same⟩ := first ran
  obtain ⟨others, further, alike⟩ := rest v continued
  exact ⟨slots ++ others, hands.bind further, by rw [List.map_append, same, alike]⟩

theorem after (first : Provides x []) (rest : ∀ v, Provides (k v) needs) :
    Provides (x >>= k) needs := first.bind rest

/-- What comes last takes no slots. -/
theorem before (first : Provides x needs) (rest : ∀ v, Provides (k v) []) :
    Provides (x >>= k) needs := by
  have whole := first.bind rest
  rwa [List.append_nil] at whole

theorem returning {f : α → β} (first : Provides x needs) :
    Provides (x >>= fun v => Pure.pure (f v)) needs := first.before fun _ => .pure _

end Provides

theorem Proceeds.provides {x : Lower α} {post : Post α} {v : α} {c : Context}
    (proceeds : Proceeds c labels later effects x post) (shows_ : frame.Shows c labels)
    (run : Yields x c.env frame v next) :
    ∃ slots, HandsOut c.env x frame slots v next ∧ slots.map (·.toNeed) = Effect.needs effects := by
  induction proceeds generalizing frame next with
  | pure => exact Provides.pure _ run
  | throw => exact absurd run yields_throw
  | alter act alters =>
    exact ⟨[], .nothing run (congrArg Frame.Sketch.position (alters.sketch_eq run)), rfl⟩
  | get _ _ ih =>
    obtain ⟨_, _, got, run⟩ := yields_bind.mp run
    obtain ⟨rfl, rfl⟩ := yields_get.mp got
    obtain ⟨slots, hands, same⟩ := ih _ shows_.toHolds shows_ run
    exact ⟨slots, .bind (.nothing got rfl) hands, same⟩
  | read _ _ ih =>
    obtain ⟨_, _, got, run⟩ := yields_bind.mp run
    obtain ⟨rfl, rfl⟩ := yields_read.mp got
    obtain ⟨slots, hands, same⟩ := ih shows_ run
    exact ⟨slots, .bind (.nothing got rfl) hands, same⟩
  | warn => exact Provides.of_idle (idle_warn _ _ _) run
  | lookup =>
    refine ⟨[], .nothing run ?_, rfl⟩
    obtain ⟨_, rfl⟩ := yields_lookup.mp run
    unfold Frame.refer
    split <;> rfl
  | reserve => exact ⟨_, .reserved run, rfl⟩
  | allocate => exact ⟨_, .allocated run, rfl⟩
  | mono _ _ ih => exact ih shows_ run
  | bind first _ firsts rests =>
    obtain ⟨_, _, ran, continued⟩ := yields_bind.mp run
    obtain ⟨more, grown, shown, holds⟩ := first.yields shows_ ran
    obtain ⟨slots, hands, same⟩ := firsts shows_ ran
    obtain ⟨others, further, alike⟩ := rests more _ grown holds shown continued
    exact ⟨slots ++ others, hands.bind further, by
      rw [List.map_append, same, alike, Effect.needs_append]⟩

theorem Steps.provides {x : Lower α} (steps : Steps x effects) : Provides x (Effect.needs effects) := by
  intro env frame v next run
  obtain ⟨_, _, proceeds⟩ := steps env []
  exact proceeds.provides (frame.shows_nothing _ _) run

/-- Steps take slots for what their effects need. -/
theorem Steps.provides_needs {x : Lower α} (steps : Steps x effects) (same : Effect.needs effects = needs) :
    Provides x needs := same ▸ steps.provides

theorem inScope_provides {body : Lower α} {needs : List Need} (provides : Provides body needs) :
    Provides (inScope body) needs :=
  .after (.of_idle .get) fun _ => provides.before fun _ => .returning (.modify fun _ => rfl)

end Nasm64.Lower
