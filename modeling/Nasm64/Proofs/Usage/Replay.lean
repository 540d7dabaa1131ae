import Nasm64.Proofs.Soundness.Statement

/-! The slots and variables of a frame after a run, replayed from the effects of its steps. -/
namespace Nasm64.Lower

/-- Where the slot starts when the ones before it end at a position, in words. -/
def Need.next (need : Need) (position : Int64) : Int64 :=
  Word.alignUp (position + max need.size 1) (max need.align 1)

/-- Words put a slot where exact arithmetic does. -/
theorem Need.toInt_next {need : Need} (aligned : Ty.Alignment need.align) (natural : 0 ≤ pos.toInt)
    (fits : need.place pos.toInt < 2 ^ 63) : (need.next pos).toInt = need.place pos.toInt := by
  have one : (1 : Int64).toInt = 1 := rfl
  have bytes := need.bytes_pos
  have least := need.le_place pos.toInt
  have positive := aligned.positive
  have step : (max need.align 1).toInt = need.step := by rw [Word.toInt_max, one, step]
  have same : max need.align 1 = need.align := by
    rcases aligned with same | same | same | same <;> rw [same] <;> decide
  have sum : (pos + max need.size 1).toInt = pos.toInt + need.bytes := by
    rw [Word.toInt_add, Word.toInt_max, one, Need.bytes] <;> rw [Word.toInt_max, one, ← Need.bytes] <;> omega
  unfold Need.next
  rw [same] at step ⊢
  rw [aligned.toInt_alignUp (by omega), sum, step, place]
  rw [sum, step]
  exact fits

/-- What an effect does to the slots of a frame. -/
def Effect.replay (sketch : Frame.Sketch) : Effect → Frame.Sketch
  | reserved need => { sketch with position := need.next sketch.position }
  | found name =>
    match sketch.scope.lookup name with
    | some offset => { sketch with referenced := sketch.referenced.insert offset }
    | none => sketch
  | declared name ty =>
    let position := (Need.ofType ty).next sketch.position
    { sketch with position, scope := (name, position) :: sketch.scope }

variable {env : Env} {frame next : Frame}

theorem lookup_sketch (frame : Frame) (name : String) :
    frame.sketch.scope.lookup name = (frame.find? name).map Variable.offset := by
  show (frame.scope.map fun entry => (entry.1, entry.2.offset)).lookup name = (frame.scope.lookup name).map _
  induction frame.scope with
  | nil => rfl
  | cons entry rest ih =>
    rw [List.map_cons, List.lookup_cons, List.lookup_cons, ih]
    cases name == entry.1 <;> rfl

theorem replay_found (found : frame.find? name = some slot) :
    (frame.refer slot).sketch = Effect.replay frame.sketch (.found name) := by
  rw [Effect.replay, lookup_sketch, found]
  simp only [Option.map_some, List.insert]
  show _ = Frame.Sketch.mk _ _ _ (if frame.referenced.contains slot.offset then _ else _)
  unfold Frame.refer
  split <;> rfl

theorem replay_declared (frame : Frame) (name : String) (ty : Ty) :
    (frame.allocate name ty).2.sketch = Effect.replay frame.sketch (.declared name ty) := by
  cases ty <;> rfl

/-- The slots after a run are known from the slots before it. -/
theorem Proceeds.replayed {α : Type} {x : Lower α} {post : Post α} {v : α} {c : Context}
    (proceeds : Proceeds c labels later effects x post) (shows_ : frame.Shows c labels)
    (run : Yields x c.env frame v next) : next.sketch = effects.foldl Effect.replay frame.sketch := by
  induction proceeds generalizing frame next with
  | pure => rw [← (yields_pure.mp run).2, List.foldl_nil]
  | throw => exact absurd run yields_throw
  | alter act alters => rw [alters.sketch_eq run, List.foldl_nil]
  | get _ _ ih =>
    obtain ⟨_, _, got, run⟩ := yields_bind.mp run
    obtain ⟨rfl, rfl⟩ := yields_get.mp got
    exact ih _ shows_.toHolds shows_ run
  | read _ _ ih =>
    obtain ⟨_, _, got, run⟩ := yields_bind.mp run
    obtain ⟨rfl, rfl⟩ := yields_read.mp got
    exact ih shows_ run
  | warn =>
    rw [yields_warn.mp run]
    split <;> rfl
  | lookup pos name =>
    obtain ⟨found, rfl⟩ := yields_lookup.mp run
    exact replay_found found
  | reserve size align =>
    obtain ⟨_, rfl⟩ := Prod.mk.inj (yields_reserve.mp run)
    rfl
  | allocate name ty =>
    have replayed := replay_declared frame name ty
    rw [yields_allocate.mp run] at replayed
    exact replayed
  | mono _ _ ih => exact ih shows_ run
  | bind first _ firsts rests =>
    obtain ⟨_, _, ran, continued⟩ := yields_bind.mp run
    obtain ⟨more, grown, shown, holds⟩ := first.yields shows_ ran
    rw [List.foldl_append, ← firsts shows_ ran, ← rests more _ grown holds shown continued]

theorem Steps.replayed {α : Type} {x : Lower α} {v : α} (steps : Steps x effects)
    (run : Yields x env frame v next) : next.sketch = effects.foldl Effect.replay frame.sketch := by
  obtain ⟨_, _, proceeds⟩ := steps env []
  exact proceeds.replayed (frame.shows_nothing _ _) run

end Nasm64.Lower
