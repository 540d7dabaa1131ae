import Nasm64.Lower.Lowering

/-! Successful runs of lowering computations. Every later argument opens a computation by the
equivalences stated here and never unfolds the layers of the monad. -/
namespace Nasm64.Lower

variable {α β : Type} {env : Env} {frame next : Frame}

/-- The computation succeeds with a value and leaves the given frame. -/
def Yields (x : Lower α) (env : Env) (frame : Frame) (value : α) (next : Frame) : Prop :=
  x env frame = .ok (value, next)

theorem Yields.unique {x : Lower α} {a b : α} {other : Frame} (first : Yields x env frame a next)
    (second : Yields x env frame b other) : a = b ∧ next = other := by
  have same := first.symm.trans second
  simpa using same

def check (x : Lower α) (env : Env) (frame : Frame) (test : α → Bool) : Bool :=
  match x env frame with
  | .ok (a, _) => test a
  | .error _ => false

/-- A run that can be computed, with a property of its value. -/
theorem Yields.of_check (x : Lower α) (env : Env) (frame : Frame) (test : α → Bool)
    (passes : check x env frame test = true) :
    ∃ a next, Yields x env frame a next ∧ test a = true := by
  unfold check at passes
  cases outcome : x env frame with
  | error halt => simp [outcome] at passes
  | ok pair => exact ⟨pair.1, pair.2, outcome, by simpa [outcome] using passes⟩

theorem yields_of_run {x : Lower α} {a b : α} {mid : Frame} (run : x env frame = .ok (a, mid)) :
    Yields x env frame b next ↔ a = b ∧ mid = next := by
  simp [Yields, run]

@[simp] theorem yields_pure {a b : α} :
    Yields (pure a) env frame b next ↔ a = b ∧ frame = next := yields_of_run rfl

theorem bind_eq (x : Lower α) (k : α → Lower β) (env : Env) (frame : Frame) :
    (x >>= k) env frame = match x env frame with
      | .ok (v, next) => k v env next
      | .error halt => .error halt := by
  simp only [Bind.bind, ReaderT.bind, StateT.bind, Except.bind]
  cases x env frame <;> rfl

theorem Yields.bind_eq {k : α → Lower β} (run : Yields x env frame v next) :
    (x >>= k) env frame = k v env next := by
  rw [Lower.bind_eq, show x env frame = .ok (v, next) from run]

@[simp] theorem yields_bind {k : α → Lower β} : Yields (x >>= k) env frame b next ↔ ∃ a mid,
    Yields x env frame a mid ∧ Yields (k a) env mid b next := by
  simp only [Yields, bind_eq]
  rcases x env frame with halt | ⟨a, mid⟩ <;> simp [and_assoc]

@[simp] theorem yields_map {f : α → β} :
    Yields (f <$> x) env frame b next ↔ ∃ a, Yields x env frame a next ∧ f a = b := by
  simp [← bind_pure_comp]

@[simp] theorem yields_get : Yields get env frame state next ↔ frame = state ∧ frame = next := yields_of_run rfl

@[simp] theorem yields_read : Yields read env frame given next ↔ env = given ∧ frame = next := yields_of_run rfl

@[simp] theorem yields_modify {change : Frame → Frame} {u : Unit} :
    Yields (modify change) env frame u next ↔ change frame = next :=
  (yields_of_run rfl).trans (by simp)

@[simp] theorem yields_set {state : Frame} {u : Unit} :
    Yields (set state) env frame u next ↔ state = next :=
  (yields_of_run rfl).trans (by simp)

@[simp] theorem yields_throw {halt : Halt} {a : α} : ¬ Yields (throw halt) env frame a next := by
  simp [Yields, throw, throwThe, MonadExceptOf.throw, liftM, monadLift, MonadLift.monadLift,
    StateT.lift, bind, Except.bind]

@[simp] theorem yields_fail {pos : Position} {problem : Problem} {a : α} :
    ¬ Yields (fail pos problem) env frame a next := yields_throw

theorem yields_ite {c : Prop} [Decidable c] {x y : Lower α} {a : α} :
    Yields (if c then x else y) env frame a next ↔
      c ∧ Yields x env frame a next ∨ ¬ c ∧ Yields y env frame a next := by
  split <;> simp [*]

theorem yields_liftCause {ε : Type} {pos : Position} {cause : ε → Cause} {res : Except ε α}
    {a : α} :
    Yields (liftCause pos cause res) env frame a next ↔ res = .ok a ∧ frame = next := by
  cases res <;> simp [liftCause]

@[simp] theorem yields_pushRegister :
    Yields (pushRegister r) env frame u next ↔ frame.push r = next := yields_modify

@[simp] theorem yields_popRegister : Yields popRegister env frame u next ↔ frame.pop = next := yields_modify

@[simp] theorem yields_touch : Yields (touch fam) env frame u next ↔ frame.touch fam = next := yields_modify

@[simp] theorem yields_release {located : Located} :
    Yields (release located) env frame u next ↔
      { frame with held := frame.held.drop located.held } = next := yields_modify

theorem addStruct?_runs (ty : Ty) (values : List (String × Expr)) (env : Env) (frame : Frame) :
    addStruct? ty values env frame = .ok ((frame.data.addStruct? ty values).map Prod.fst,
      { frame with data := ((frame.data.addStruct? ty values).map Prod.snd).getD frame.data }) := by
  suffices Yields (addStruct? ty values) env frame ((frame.data.addStruct? ty values).map Prod.fst)
    { frame with data := ((frame.data.addStruct? ty values).map Prod.snd).getD frame.data } from this
  simp only [addStruct?, yields_bind, yields_get]
  refine ⟨frame, frame, ⟨rfl, rfl⟩, ?_⟩
  cases frame.data.addStruct? ty values with
  | none => exact yields_pure.mpr ⟨rfl, rfl⟩
  | some added => exact yields_bind.mpr ⟨(), _, yields_modify.mpr rfl, yields_pure.mpr ⟨rfl, rfl⟩⟩

/-- The frame after a search for a register, which notes the one it finds. -/
def Frame.noting (frame : Frame) : Except Register.Error Register → Frame
  | .ok register => frame.touch register.family
  | .error _ => frame

theorem yields_acquire? :
    Yields (acquire? isFloat size excluded) env frame res next ↔
      frame.free isFloat size excluded = res ∧ frame.noting res = next := by
  cases found : frame.free isFloat size excluded with
  | error error =>
    simp [acquire?, found, and_assoc]
    rintro rfl
    rfl
  | ok r =>
    simp [acquire?, found, and_assoc, and_comm]
    rintro rfl
    rfl

theorem yields_acquire {pos : Position} {isFloat : Bool} {size : Int} {r : Register} :
    Yields (acquire pos isFloat size) env frame r next ↔
      frame.free isFloat size = .ok r ∧ frame.touch r.family = next := by
  simp [acquire, yields_acquire?, yields_liftCause, and_assoc]
  intro found
  rw [found, Frame.noting]

end Nasm64.Lower
