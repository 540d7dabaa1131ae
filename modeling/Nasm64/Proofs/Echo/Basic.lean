import Nasm64.Proofs.Lower.Attempt
import Nasm64.Proofs.Soundness.Statement

/-! Two runs side by side, from frames that differ on their margin only: in the warnings recorded so
far and in the names in scope. No instruction depends on the margin but through the variables that
are looked up. -/
namespace Nasm64.Lower

open Attempt

variable {α β γ δ : Type}

/-- The margin after a warning, which is only recorded where it is wanted. -/
def Margin.warn (margin : Margin) (env : Env) (warning : Warning) : Margin :=
  if env.hasWarning warning.kind then { margin with warnings := margin.warnings ++ [warning] }
  else margin

namespace Frame

theorem refer_withMargin (frame : Frame) (margin : Margin) (slot : Variable) :
    (frame.withMargin margin).refer slot = (frame.refer slot).withMargin margin := by
  unfold Frame.refer withMargin
  split <;> rfl

theorem refer_margin (frame : Frame) (slot : Variable) : (frame.refer slot).margin = frame.margin := by
  unfold Frame.refer
  split <;> rfl

end Frame

/-- Two environments and how the margins of the two runs are related. A warning keeps them so, and
the names that matter denote the same variables on both. -/
structure Pairing where
  left : Env
  right : Env
  related : Margin → Margin → Prop
  names : String → Prop
  agrees : left.Agrees right
  warned : ∀ ⦃margin other⦄ (warning : Warning), related margin other →
    related (margin.warn left warning) (other.warn right warning)
  found : ∀ ⦃margin other name⦄, names name → related margin other →
    margin.scope.lookup name = other.scope.lookup name

def Pairing.Matches (pair : Pairing) (frame mirror : Frame) : Prop :=
  ∃ margin, pair.related frame.margin margin ∧ mirror = frame.withMargin margin

variable {pair : Pairing}

/-- From frames that match, both computations fail in the same way, or both succeed, with related
values and frames that match again. -/
def Echoes (pair : Pairing) (x : Lower α) (y : Lower β) (post : α → β → Prop) : Prop :=
  ∀ ⦃frame mirror⦄, pair.Matches frame mirror →
    Agree (fun first second => post first.1 second.1 ∧ pair.Matches first.2 second.2)
      (x pair.left frame) (y pair.right mirror)

abbrev Repeats (pair : Pairing) (x : Lower α) : Prop := Echoes pair x x Eq

namespace Echoes

variable {x : Lower α} {y : Lower β} {f : α → Lower γ} {g : β → Lower δ} {post : α → β → Prop}
  {after : γ → δ → Prop}

theorem pure (holds : post v res) : Echoes pair (Pure.pure v) (Pure.pure res) post :=
  fun _ _ matched => .ok ⟨holds, matched⟩

theorem bind (first : Echoes pair x y post)
    (rest : ∀ v res, post v res → Echoes pair (f v) (g res) after) :
    Echoes pair (x >>= f) (y >>= g) after := by
  intro frame mirror matched
  apply (first matched).bind
  rintro ⟨v, next⟩ ⟨res, following⟩ ⟨holds, again⟩
  exact rest v res holds again

theorem repeat_bind {f : α → Lower γ} {g : α → Lower δ} (first : Repeats pair x)
    (rest : ∀ v, Echoes pair (f v) (g v) after) : Echoes pair (x >>= f) (x >>= g) after := by
  apply first.bind
  rintro v _ rfl
  exact rest v

theorem fail : Echoes pair (fail pos problem) (fail pos problem) post := fun _ _ _ => .error

theorem ite {c : Prop} [Decidable c] {x₂ : Lower α} {y₂ : Lower β} (holds : Echoes pair x y post)
    (fails : Echoes pair x₂ y₂ post) :
    Echoes pair (if c then x else x₂) (if c then y else y₂) post := by
  by_cases test : c
  · rw [if_pos test, if_pos test]
    exact holds
  · rw [if_neg test, if_neg test]
    exact fails

theorem get_bind {f : Frame → Lower γ} {g : Frame → Lower δ}
    (same : ∀ frame margin, g (frame.withMargin margin) = g frame)
    (rest : ∀ frame, Echoes pair (f frame) (g frame) after) :
    Echoes pair (get >>= f) (get >>= g) after := by
  rintro frame _ ⟨margin, related, rfl⟩
  show Agree _ (f frame pair.left frame)
    (g (frame.withMargin margin) pair.right (frame.withMargin margin))
  rw [same]
  exact rest frame ⟨margin, related, rfl⟩

theorem read_bind {f : Env → Lower γ} {g : Env → Lower δ} (same : g pair.left = g pair.right)
    (rest : Echoes pair (f pair.left) (g pair.left) after) :
    Echoes pair (read >>= f) (read >>= g) after := by
  intro frame mirror matched
  show Agree _ (f pair.left pair.left frame) (g pair.right pair.right mirror)
  rw [← same]
  exact rest matched

end Echoes

namespace Repeats

variable {x y : Lower α} {f : α → Lower β}

theorem pure (v : α) : Repeats pair (Pure.pure v) := Echoes.pure rfl

theorem bind (first : Repeats pair x) (rest : ∀ v, Repeats pair (f v)) :
    Repeats pair (x >>= f) := Echoes.repeat_bind first rest

theorem ite {c : Prop} [Decidable c] (holds : Repeats pair x) (fails : Repeats pair y) :
    Repeats pair (if c then x else y) := Echoes.ite holds fails

theorem mapM {action : α → Lower β} (each : ∀ item, Repeats pair (action item)) (items : List α) :
    Repeats pair (items.mapM action) := by
  induction items with
  | nil => exact .pure []
  | cons item rest ih =>
    rw [List.mapM_cons]
    exact (each item).bind fun _ => ih.bind fun _ => .pure _

/-- A step that always succeeds, and neither reads nor changes the margin. -/
theorem of_step (v : Frame → α) (change : Frame → Frame)
    (step : ∀ env frame, x env frame = .ok (v frame, change frame))
    (same : ∀ frame margin, v (frame.withMargin margin) = v frame)
    (moves : ∀ frame margin, change (frame.withMargin margin) = (change frame).withMargin margin)
    (still : ∀ frame, (change frame).margin = frame.margin) : Repeats pair x := by
  rintro frame _ ⟨margin, related, rfl⟩
  rw [step, step]
  refine .ok ⟨(same frame margin).symm, margin, ?_, moves frame margin⟩
  rw [still]
  exact related

theorem get_bind {k : Frame → Lower β}
    (same : ∀ frame margin, k (frame.withMargin margin) = k frame)
    (rest : ∀ frame, Repeats pair (k frame)) : Repeats pair (get >>= k) := Echoes.get_bind same rest

end Repeats

/-- A warning is recorded on either side as it is wanted there. -/
theorem repeats_warn (kind : WarningKind) (pos : Position) (message : String) :
    Repeats pair (warn kind pos message) := by
  rintro frame _ ⟨margin, related, rfl⟩
  have step (env : Env) (frame : Frame) : warn kind pos message env frame =
      .ok ((), frame.withMargin (frame.margin.warn env ⟨kind, pos, message⟩)) := by
    show (if env.hasWarning kind then _ else _ : Lower Unit) env frame = _
    unfold Margin.warn
    by_cases wanted : env.hasWarning kind = true
    · rw [if_pos wanted, if_pos wanted]
      rfl
    · rw [if_neg wanted, if_neg wanted]
      rfl
  rw [step, step]
  exact .ok ⟨rfl, _, pair.warned _ related, rfl⟩

theorem repeats_reserve (size align : Int64) : Repeats pair (reserve size align) :=
  .of_step (fun frame => (frame.reserve size align).1) (fun frame => (frame.reserve size align).2)
    (fun _ _ => rfl) (fun _ _ => rfl) (fun _ _ => rfl) fun _ => rfl

/-- A name that matters is found to denote the same variable, or is undefined in both runs. -/
theorem repeats_lookup (known : pair.names name) (pos : Position) :
    Repeats pair (lookup pos name) := by
  rintro frame _ ⟨margin, related, rfl⟩
  have same : frame.find? name = (frame.withMargin margin).find? name := pair.found known related
  rw [lookup_eq, lookup_eq, ← same]
  cases frame.find? name with
  | none => exact .error
  | some slot =>
    refine .ok ⟨rfl, margin, ?_, frame.refer_withMargin margin slot⟩
    rw [Frame.refer_margin]
    exact related

/-- Pairings in which both runs see the same scope, and keep doing so when both change it alike. -/
structure Pairing.SharesScope (pair : Pairing) : Prop where
  all : ∀ name, pair.names name
  same : ∀ ⦃margin other⦄, pair.related margin other → margin.scope = other.scope
  rescoped : ∀ ⦃margin other⦄ (scope : List (String × Variable)), pair.related margin other →
    pair.related { margin with scope } { other with scope }

theorem repeats_allocate (shares : pair.SharesScope) (name : String) (ty : Ty) :
    Repeats pair (allocate name ty) := by
  rintro frame _ ⟨margin, related, rfl⟩
  have scope := shares.same related
  have again : pair.Matches (frame.allocate name ty).2 ((frame.withMargin margin).allocate name ty).2 := by
    refine ⟨⟨margin.warnings, (name, (frame.allocate name ty).1) :: margin.scope⟩, ?_, rfl⟩
    show pair.related ⟨frame.warnings, (name, (frame.allocate name ty).1) :: frame.scope⟩ _
    rw [show frame.scope = margin.scope from scope]
    exact shares.rescoped _ related
  exact .ok ⟨rfl, again⟩

theorem agree_bind {x : Lower α} {k : α → Lower β} {frame mirror : Frame}
    {post : β × Frame → β × Frame → Prop}
    (both : Agree (fun first second => first.1 = second.1 ∧
      pair.Matches first.2 second.2) (x pair.left frame) (x pair.right mirror))
    (rest : ∀ v next following, Yields x pair.left frame v next → pair.Matches next following →
      Agree post (k v pair.left next) (k v pair.right following)) :
    Agree post ((x >>= k) pair.left frame) ((x >>= k) pair.right mirror) := by
  show Agree _ (x pair.left frame >>= _) (x pair.right mirror >>= _)
  generalize ran : x pair.left frame = outcome, x pair.right mirror = other at both ⊢
  cases both with
  | error => exact .error
  | @ok reached twin holds =>
    obtain ⟨v, next⟩ := reached
    obtain ⟨rfl, again⟩ := holds
    exact rest _ _ _ ran again

/-- What is done in steps is the same in both runs when they find the same variables, and see the same
scope if any are declared. -/
theorem Proceeds.repeats {x : Lower α} (proceeds : Proceeds c labels later effects x post)
    (here : c.env = pair.left) (known : ∀ name, .found name ∈ effects → pair.names name)
    (shares : ∀ name ty, .declared name ty ∈ effects → pair.SharesScope) ⦃frame mirror : Frame⦄
    (shows_ : frame.Shows c labels) (matched : pair.Matches frame mirror) :
    Agree (fun first second => first.1 = second.1 ∧ pair.Matches first.2 second.2)
      (x pair.left frame) (x pair.right mirror) := by
  induction proceeds generalizing frame mirror with
  | pure => exact .ok ⟨rfl, matched⟩
  | throw => exact .error
  | alter act alters =>
    obtain ⟨margin, related, rfl⟩ := matched
    rw [alters.runs _ (here ▸ .refl _), alters.runs _ (here ▸ pair.agrees), alters.moves]
    exact .ok ⟨rfl, margin, by rwa [alters.keeps], rfl⟩
  | get same _ ih =>
    obtain ⟨margin, related, rfl⟩ := matched
    have got (env : Env) (frame : Frame) : (MonadState.get : Lower Frame) env frame = .ok (frame, frame) :=
      rfl
    simp only [bind_eq, got, same]
    exact ih frame shows_.toHolds here known shares shows_ ⟨margin, related, rfl⟩
  | read same _ ih =>
    simp only [bind_eq, read_run]
    rw [← same pair.right (here ▸ pair.agrees)]
    have again := ih here known shares shows_ matched
    rw [here] at again ⊢
    exact again
  | warn => exact repeats_warn _ _ _ matched
  | lookup pos name => exact repeats_lookup (known name (by simp)) pos matched
  | reserve => exact repeats_reserve _ _ matched
  | allocate name ty => exact repeats_allocate (shares name ty (by simp)) _ _ matched
  | mono _ _ ih => exact ih here known shares shows_ matched
  | bind first _ firsts rests =>
    have both := firsts here (fun name mem => known name (by simp [mem]))
      (fun name ty mem => shares name ty (by simp [mem])) shows_ matched
    refine agree_bind both fun v next following ran again => ?_
    obtain ⟨more, grown, shown, during⟩ := first.yields shows_ (here ▸ ran)
    exact rests more v grown during here (fun name mem => known name (by simp [mem]))
      (fun name ty mem => shares name ty (by simp [mem])) shown again

theorem Steps.repeats {x : Lower α} (steps : Steps x effects)
    (known : ∀ name, .found name ∈ effects → pair.names name)
    (shares : ∀ name ty, .declared name ty ∈ effects → pair.SharesScope) : Repeats pair x := by
  intro frame mirror matched
  obtain ⟨_, _, proceeds⟩ := steps pair.left []
  exact proceeds.repeats rfl known shares (frame.shows_nothing _ _) matched

/-- Steps that declare nothing, when the names matter that they find. -/
theorem Steps.repeats_reading {x : Lower α} (steps : Steps x effects) (reads : Effect.Reads effects names)
    (known : ∀ name ∈ names, pair.names name) : Repeats pair x := by
  apply steps.repeats
  · intro name mem
    exact known name (reads.mem_names mem)
  · intro name ty mem
    exact absurd mem reads.not_declared

theorem Steps.repeats_silent {x : Lower α} (steps : Steps x []) : Repeats pair x :=
  steps.repeats_reading .nil nofun

end Nasm64.Lower
