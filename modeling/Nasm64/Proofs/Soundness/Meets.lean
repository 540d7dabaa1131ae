import Nasm64.Proofs.Data.Section
import Nasm64.Proofs.Soundness.Proper
import Nasm64.Proofs.Stack.Block
import Nasm64.Proofs.Steps.Effects

/-! What lowering is made of and what it may come to. Expressions and simple statements are put together
from steps that depend neither on the warnings recorded so far nor on the names in scope, but through the
variables that are looked up. They succeed with a value that has a property, or halt for a reason that
is permitted. In a typed tree that excludes the errors of the generator itself, unless no register is
free. -/
namespace Nasm64

namespace Lower

def Frame.types (frame : Frame) : List (String × Ty) :=
  frame.scope.map fun entry => (entry.1, entry.2.type)

/-- Where something is lowered: in a tree that may be typed, with these variables in scope. -/
structure Context where
  typed : Prop
  env : Env
  scope : List (String × Ty)

/-- In a typed tree the registers that are held can all hold a value, and the types of variables are
known. -/
structure Frame.Holds (context : Context) (frame : Frame) : Prop where
  held : context.typed → ∀ register ∈ frame.held, register.family.isUsable = true
  types : context.typed → frame.types = context.scope

/-- Labels of the data are known as well, which are hashes. -/
structure Frame.Shows (context : Context) (labels : List String) (frame : Frame) : Prop
    extends Frame.Holds context frame where
  known : frame.data.Backs labels

/-- Reasons to halt: a failure that a typed tree may have, or a stack that cannot be aligned. -/
def Halt.Permitted (context : Context) : Halt → Prop
  | .failure reason => context.typed → reason.kind ≠ .internal ∨ (Halt.failure reason).Exhausts
  | .fault reason => reason = .zeroAlignment ∧ context.env.stackAlignment = 0

/-- A step that always succeeds, and neither depends on the margin nor changes it or the slots. -/
structure Alters {α : Type} (env : Env) (x : Lower α) (act : Frame → α × Frame) : Prop where
  runs : ∀ other, env.Agrees other → ∀ frame, x other frame = .ok (act frame)
  moves : ∀ frame margin, act (frame.withMargin margin) =
    ((act frame).1, (act frame).2.withMargin margin)
  keeps : ∀ frame, (act frame).2.margin = frame.margin
  still : ∀ frame, (act frame).2.sketch = frame.sketch

theorem Alters.sketch_eq {α : Type} {x : Lower α} {act : Frame → α × Frame} {v : α} {frame next : Frame}
    (alters : Alters env x act) (run : Yields x env frame v next) : next.sketch = frame.sketch := by
  have still := alters.still frame
  rwa [Except.ok.inj ((alters.runs env (.refl env) frame).symm.trans run)] at still

/-- What is said of a value and of the labels that are known by then. -/
abbrev Post (α : Type) := List String → α → Prop

/-- A computation put together from steps, with the effects they come with, the scope that they leave
and what they come to. -/
inductive Proceeds : {α : Type} → Context → List String → List (String × Ty) → List Effect → Lower α →
    Post α → Prop
  | pure {α : Type} {value : α} {post : Post α} (holds : post labels value) :
    Proceeds c labels c.scope [] (Pure.pure value) post
  | throw {α : Type} {post : Post α} (permitted : halt.Permitted c) :
    Proceeds c labels later effects (MonadExcept.throw halt) post
  | alter {α : Type} {x : Lower α} {post : Post α} (act : Frame → α × Frame)
    (alters : Alters c.env x act)
    (shown : ∀ frame, frame.Shows c labels → ∃ more, labels ⊆ more ∧ (act frame).2.Shows c more ∧
      post more (act frame).1) : Proceeds c labels c.scope [] x post
  | get {α : Type} {post : Post α} {k : Frame → Lower α}
    (same : ∀ frame margin, k (frame.withMargin margin) = k frame)
    (rest : ∀ frame, frame.Holds c → Proceeds c labels later effects (k frame) post) :
    Proceeds c labels later effects (get >>= k) post
  | read {α : Type} {post : Post α} {k : Env → Lower α}
    (same : ∀ other, c.env.Agrees other → k c.env = k other)
    (rest : Proceeds c labels later effects (k c.env) post) :
    Proceeds c labels later effects (read >>= k) post
  | warn (kind : WarningKind) (position : Position) (message : String) :
    Proceeds c labels c.scope [] (warn kind position message) fun more _ => more = labels ∧ True
  | lookup (position : Position) (name : String) :
    Proceeds c labels c.scope [.found name] (lookup position name) fun more slot =>
      more = labels ∧ (c.typed → c.scope.lookup name = some slot.type)
  | reserve (size align : Int64) :
    Proceeds c labels c.scope [.reserved ⟨size, align⟩] (reserve size align) fun more _ =>
      more = labels ∧ True
  | allocate (name : String) (ty : Ty) :
    Proceeds c labels ((name, ty) :: c.scope) [.declared name ty] (allocate name ty) fun more _ =>
      more = labels ∧ True
  | mono {α : Type} {x : Lower α} {post wider : Post α} (meets : Proceeds c labels later effects x post)
    (implies : ∀ more v, post more v → wider more v) : Proceeds c labels later effects x wider
  | bind {α β : Type} {x : Lower α} {k : α → Lower β} {during : Post α} {post : Post β}
    (first : Proceeds c labels later effects x during)
    (rest : ∀ more v, labels ⊆ more → during more v →
      Proceeds { c with scope := later } more last further (k v) post) :
    Proceeds c labels last (effects ++ further) (x >>= k) post

/-- The scope stays as it is. -/
abbrev Meets {α : Type} (c : Context) (labels : List String) (effects : List Effect) (x : Lower α)
    (post : Post α) : Prop := Proceeds c labels c.scope effects x post

/-- Labels, scope and slots stay as they are. -/
abbrev Steady {α : Type} (c : Context) (labels : List String) (x : Lower α) (post : α → Prop) : Prop :=
  Meets c labels [] x fun more v => more = labels ∧ post v

/-- What a run may come to. -/
def Ends {α : Type} (c : Context) (labels : List String) (later : List (String × Ty)) (x : Lower α)
    (post : Post α) : Prop :=
  ∀ ⦃frame : Frame⦄, frame.Shows c labels →
    match x c.env frame with
    | .ok (value, next) =>
      ∃ more, labels ⊆ more ∧ next.Shows { c with scope := later } more ∧ post more value
    | .error halt => halt.Permitted c

variable {α β : Type} {c : Context} {labels : List String} {later last : List (String × Ty)}
  {effects further : List Effect}

namespace Frame.Shows

variable {frame next : Frame}

section

variable (shows_ : frame.Shows c labels)

include shows_

/-- Only the data, the registers held and the scope matter. -/
theorem congr (data : next.data = frame.data) (held : ∀ r ∈ next.held, r ∈ frame.held)
    (same : next.scope = frame.scope) : next.Shows c labels where
  held := fun is r mem => shows_.held is r (held r mem)
  types := fun is => by rw [Frame.types, same]; exact shows_.types is
  known := data ▸ shows_.known

theorem push {r : Register} (usable : c.typed → r.family.isUsable = true) :
    (frame.push r).Shows c labels where
  held := fun is => List.forall_mem_cons.mpr ⟨usable is, shows_.held is⟩
  types := shows_.types
  known := shows_.known

theorem touch (fam : Family) : (frame.touch fam).Shows c labels := by
  unfold Frame.touch
  split
  · exact shows_.congr rfl (fun _ => id) rfl
  · exact shows_

theorem add (hash : DataSection.IsHash label) (item : Data.Item) :
    ({ frame with data := frame.data.add label item } : Frame).Shows c (label :: labels) where
  held := shows_.held
  types := shows_.types
  known := List.forall_mem_cons.mpr ⟨⟨DataSection.mem_labels_add.mpr (.inr rfl), hash⟩, fun other mem =>
    ⟨DataSection.mem_labels_add.mpr (.inl (shows_.known other mem).1), (shows_.known other mem).2⟩⟩

end

end Frame.Shows

/-- Of a tree that need not be typed nothing is known. -/
theorem Frame.shows_nothing (env : Env) (scope : List (String × Ty)) (frame : Frame) :
    frame.Shows ⟨False, env, scope⟩ [] := ⟨⟨nofun, nofun⟩, nofun⟩

theorem Frame.lookup_types (frame : Frame) (name : String) :
    frame.types.lookup name = (frame.scope.lookup name).map Variable.type := by
  unfold Frame.types
  induction frame.scope with
  | nil => rfl
  | cons entry rest ih =>
    obtain ⟨key, slot⟩ := entry
    simp only [List.map_cons, List.lookup_cons, ih]
    cases name == key <;> rfl

theorem lookup_eq (pos : Position) (name : String) (env : Env) (frame : Frame) :
    lookup pos name env frame = (frame.find? name).elim
      (.error (.failure ⟨pos, .undefinedVariable name⟩)) fun slot => .ok (slot, frame.refer slot) := by
  have got : (get : Lower Frame) env frame = .ok (frame, frame) := rfl
  simp only [lookup, find?, bind_eq, got]
  cases frame.find? name <;> rfl

namespace Ends

variable {x : Lower α} {k : α → Lower β} {during : Post α}
  {post : Post β}

theorem pure (holds : during labels v) : Ends c labels c.scope (Pure.pure v) during :=
  fun _ shows_ => ⟨labels, fun _ => id, shows_, holds⟩

theorem bind (first : Ends c labels later x during)
    (rest : ∀ more v, labels ⊆ more → during more v →
      Ends { c with scope := later } more last (k v) post) : Ends c labels last (x >>= k) post := by
  intro frame shows_
  have ran := first shows_
  rw [bind_eq]
  cases outcome : x c.env frame with
  | error => rwa [outcome] at ran
  | ok result =>
    rw [outcome] at ran
    obtain ⟨v, next⟩ := result
    obtain ⟨more, grown, shown, holds⟩ := ran
    have continued := rest more v grown holds shown
    dsimp only at continued ⊢
    cases ends : k v c.env next with
    | error => rwa [ends] at continued
    | ok =>
      rw [ends] at continued
      obtain ⟨further, wider, rest⟩ := continued
      exact ⟨further, List.Subset.trans grown wider, rest⟩

theorem of_yields
    (runs : ∀ frame : Frame, frame.Shows c labels → ∃ v next, Yields x c.env frame v next ∧
      next.Shows { c with scope := later } labels ∧ during labels v) :
    Ends c labels later x during := by
  intro frame shows_
  obtain ⟨v, next, run, rest⟩ := runs frame shows_
  rw [show x c.env frame = .ok (v, next) from run]
  exact ⟨labels, fun _ => id, rest⟩

theorem inScope (body : Ends c labels later x during) : Ends c labels c.scope (inScope x) during := by
  intro start shows_
  have whole : Ends c labels c.scope (do
      let v ← x
      modify fun frame : Frame => { frame with scope := start.scope }
      return v) during := by
    refine bind body fun more v grown holds => of_yields fun frame shown => ?_
    exact ⟨v, _, yields_bind.mpr ⟨(), _, yields_modify.mpr rfl, yields_pure.mpr ⟨rfl, rfl⟩⟩,
      ⟨⟨shown.held, shows_.types⟩, shown.known⟩, holds⟩
  exact whole shows_

end Ends

/-- What is done in steps comes to an end that is known. -/
theorem Proceeds.ends {x : Lower α} {post : Post α}
    (proceeds : Proceeds c labels later effects x post) : Ends c labels later x post := by
  induction proceeds with
  | pure holds => exact .pure holds
  | throw permitted => exact fun _ _ => permitted
  | alter act alters shown =>
    intro frame shows_
    rw [alters.runs _ (.refl _)]
    exact shown frame shows_
  | get _ _ ih => exact fun frame shows_ => ih frame shows_.toHolds shows_
  | read _ _ ih => exact ih
  | warn =>
    exact .of_yields fun _ shows_ => ⟨(), _, yields_warn.mpr rfl, shows_.congr rfl (fun _ => id) rfl,
      rfl, trivial⟩
  | lookup pos name =>
    intro frame shows_
    rw [lookup_eq]
    cases found : frame.find? name with
    | none => exact fun _ => .inl (by simp [Failure.kind, Problem.kind])
    | some slot =>
      refine ⟨_, fun _ => id, ?_, rfl, fun is => ?_⟩
      · unfold Frame.refer
        split
        · exact shows_
        · exact shows_.congr rfl (fun _ => id) rfl
      · rw [← shows_.types is, Frame.lookup_types, ← Frame.find?, found, Option.map_some]
  | reserve =>
    exact .of_yields fun _ shows_ => ⟨_, _, yields_reserve.mpr rfl, shows_.congr rfl (fun _ => id) rfl,
      rfl, trivial⟩
  | allocate name ty =>
    refine .of_yields fun frame shows_ => ⟨_, _, rfl, ⟨⟨shows_.held, fun is => ?_⟩, shows_.known⟩, rfl, trivial⟩
    rw [← shows_.types is]
    cases ty <;> rfl
  | mono _ implies ih =>
    intro frame shows_
    have ran := ih shows_
    split at ran
    · obtain ⟨more, grown, shown, holds⟩ := ran
      exact ⟨more, grown, shown, implies more _ holds⟩
    · exact ran
  | bind _ _ first rest => exact .bind first rest

theorem Proceeds.yields {x : Lower α} {post : Post α} {v : α} {frame next : Frame}
    (proceeds : Proceeds c labels later effects x post) (shows_ : frame.Shows c labels)
    (run : Yields x c.env frame v next) :
    ∃ more, labels ⊆ more ∧ next.Shows { c with scope := later } more ∧ post more v := by
  have ran := proceeds.ends shows_
  rwa [show x c.env frame = .ok (v, next) from run] at ran

theorem Ends.step {x : Lower α} {k : α → Lower β} {post : Post β} (first : Steady c labels x given)
    (rest : ∀ v, given v → Ends c labels last (k v) post) : Ends c labels last (x >>= k) post := by
  refine .bind first.ends ?_
  rintro _ v _ ⟨rfl, holds⟩
  exact rest v holds

namespace Proceeds

variable {x y : Lower α} {k : α → Lower β} {during mid : Post α}
  {post : Post β} {given : α → Prop}

/-- What comes first leaves no trace. -/
theorem step (first : Steady c labels x given)
    (rest : ∀ v, given v → Proceeds c labels later effects (k v) post) :
    Proceeds c labels later effects (x >>= k) post := by
  refine .bind first ?_
  rintro _ v _ ⟨rfl, holds⟩
  exact rest v holds

/-- What comes last has no effects. -/
theorem before (first : Proceeds c labels later effects x during)
    (rest : ∀ more v, labels ⊆ more → during more v →
      Proceeds { c with scope := later } more last [] (k v) post) :
    Proceeds c labels last effects (x >>= k) post := List.append_nil effects ▸ first.bind rest

/-- What comes first has no effects. -/
theorem after (first : Proceeds c labels later [] x during)
    (rest : ∀ more v, labels ⊆ more → during more v →
      Proceeds { c with scope := later } more last effects (k v) post) :
    Proceeds c labels last effects (x >>= k) post := first.bind rest

theorem ite {cond : Prop} [Decidable cond] (yes : cond → Proceeds c labels later effects x during)
    (no : ¬ cond → Proceeds c labels later effects y during) :
    Proceeds c labels later effects (if cond then x else y) during := by
  split
  · exact yes ‹_›
  · exact no ‹_›

theorem fail (reported : c.typed → problem.kind ≠ .internal ∨ (Halt.failure ⟨pos, problem⟩).Exhausts) :
    Proceeds c labels later effects (Lower.fail pos problem) during := .throw reported

theorem refuse (external : (problem.kind == .internal) = false) :
    Proceeds c labels later effects (Lower.fail pos problem) during :=
  .fail fun _ => .inl (beq_eq_false_iff_ne.mp external)

theorem holding (usable : c.typed → r.family.isUsable = true)
    (body : Proceeds c labels later effects x during) :
    Proceeds c labels later effects (holding r x) during := by
  refine .get (fun _ _ => rfl) fun _ _ => .ite (fun _ => body) fun _ => ?_
  have pushed : Steady c labels (pushRegister r) fun _ => True :=
    .alter _ ⟨fun _ _ _ => rfl, fun _ _ => rfl, fun _ => rfl, fun _ => rfl⟩ fun _ shows_ =>
      ⟨labels, fun _ => id, shows_.push usable, rfl, trivial⟩
  refine .step pushed fun _ _ => .before body fun more v _ holds => ?_
  have popped : Steady { c with scope := later } more popRegister fun _ => True :=
    .alter _ ⟨fun _ _ _ => rfl, fun _ _ => rfl, fun _ => rfl, fun _ => rfl⟩ fun _ shows_ =>
      ⟨more, fun _ => id, shows_.congr rfl (fun _ => List.mem_of_mem_tail) rfl, rfl, trivial⟩
  exact .step popped fun _ _ => .pure holds

theorem addString (text : String) :
    Meets c labels [] (addString text) fun more label => label ∈ more :=
  .alter (fun frame => ((frame.data.addString text).1,
    { frame with data := (frame.data.addString text).2 }))
      ⟨fun _ _ _ => rfl, fun _ _ => rfl, fun _ => rfl, fun _ => rfl⟩ fun _ shows_ =>
      ⟨_, List.subset_cons_self _ _, shows_.add ⟨"str", by simp, _, rfl⟩ _, List.mem_cons_self⟩

theorem addFloat (v : Double) (size : Int) :
    Meets c labels [] (addFloat v size) fun more label => label ∈ more :=
  .alter (fun frame => ((frame.data.addFloat v size).1,
    { frame with data := (frame.data.addFloat v size).2 }))
      ⟨fun _ _ _ => rfl, fun _ _ => rfl, fun _ => rfl, fun _ => rfl⟩ fun _ shows_ =>
      ⟨_, List.subset_cons_self _ _, shows_.add ⟨"flt", by simp, _, rfl⟩ _, List.mem_cons_self⟩

/-- A literal goes into the data section when all its values are constants. -/
theorem addStruct? (ty : Ty) (values : List (String × Expr)) :
    Meets c labels [] (addStruct? ty values) fun more label? =>
      label?.isSome = (DataSection.constantFields? ty.fields values).isSome ∧
        ∀ label, label? = some label → label ∈ more := by
  refine .alter _ ⟨fun _ _ => addStruct?_runs ty values _, fun _ _ => rfl, fun _ => rfl, fun _ => rfl⟩
    fun frame shows_ => ?_
  simp only [DataSection.addStruct?]
  cases DataSection.constantFields? ty.fields values with
  | none => exact ⟨labels, fun _ => id, shows_, by simp⟩
  | some fields =>
    refine ⟨_, List.subset_cons_self _ _, shows_.add ⟨"lit", by simp, _, rfl⟩ _, rfl, ?_⟩
    rintro _ ⟨⟩
    exact List.mem_cons_self

end Proceeds

namespace Steady

variable {x : Lower α} {given wider : α → Prop} {r dst : Register} {ty : Ty} {isFloat : Bool}

theorem pure (holds : given v) : Steady c labels (Pure.pure v) given := Proceeds.pure ⟨rfl, holds⟩

theorem mono (steady : Steady c labels x given) (implies : ∀ v, given v → wider v) :
    Steady c labels x wider := Proceeds.mono steady fun _ v holds => ⟨holds.1, implies v holds.2⟩

theorem alter (act : Frame → α × Frame) (alters : Alters c.env x act)
    (shown : ∀ frame : Frame, frame.Shows c labels → (act frame).2.Shows c labels ∧
      given (act frame).1) : Steady c labels x given :=
  Proceeds.alter act alters fun frame shows_ =>
    ⟨labels, fun _ => id, (shown frame shows_).1, rfl, (shown frame shows_).2⟩

/-- What it is put into matters for nothing that is known. -/
theorem silent (act : Frame → α × Frame) (alters : Alters c.env x act)
    (still : ∀ frame, (act frame).2.data = frame.data ∧ (act frame).2.held = frame.held ∧
      given (act frame).1) : Steady c labels x given := by
  refine .alter act alters fun frame shows_ => ?_
  obtain ⟨data, held, holds⟩ := still frame
  refine ⟨shows_.congr data (fun r mem => held ▸ mem) ?_, holds⟩
  exact congrArg Margin.scope (alters.keeps frame)

theorem modify {change : Frame → Frame}
    (alters : Alters c.env (modify change) fun frame => ((), change frame))
    (still : ∀ frame, (change frame).data = frame.data ∧ (change frame).held = frame.held) :
    Steady c labels (modify change) fun _ => True :=
  .silent _ alters fun frame => ⟨(still frame).1, (still frame).2, trivial⟩

theorem push (usable : c.typed → r.family.isUsable = true) :
    Steady c labels (pushRegister r) fun _ => True :=
  .alter _ ⟨fun _ _ _ => rfl, fun _ _ => rfl, fun _ => rfl, fun _ => rfl⟩ fun _ shows_ =>
    ⟨shows_.push usable, trivial⟩

theorem pop : Steady c labels popRegister fun _ => True :=
  .alter _ ⟨fun _ _ _ => rfl, fun _ _ => rfl, fun _ => rfl, fun _ => rfl⟩ fun _ shows_ =>
    ⟨shows_.congr rfl (fun _ => List.mem_of_mem_tail) rfl, trivial⟩

theorem release (located : Located) : Steady c labels (release located) fun _ => True :=
  .alter _ ⟨fun _ _ _ => rfl, fun _ _ => rfl, fun _ => rfl, fun _ => rfl⟩ fun _ shows_ =>
    ⟨shows_.congr rfl (fun _ => List.mem_of_mem_drop) rfl, trivial⟩

theorem touch (fam : Family) : Steady c labels (touch fam) fun _ => True :=
  .alter (fun frame => ((), frame.touch fam))
    { runs := fun _ _ _ => rfl
      moves := fun frame margin => by rw [frame.touch_withMargin]
      keeps := fun frame => frame.touch_margin fam
      still := fun frame => frame.touch_sketch fam } fun _ shows_ => ⟨shows_.touch fam, trivial⟩

/-- Searching for a register ends with one for the values of the class or, at a width that the class
has, with none left. -/
theorem acquire? (isFloat : Bool) (size : Int) : Steady c labels (acquire? isFloat size) fun res =>
    (∀ r, res = .ok r → r.Serves isFloat) ∧ (Register.inPool isFloat size = true →
      ∀ error, res = .error error → error = .exhausted isFloat size) := by
  refine .get (fun _ _ => rfl) fun frame _ => ?_
  have outcome : (∀ r, frame.free isFloat size = .ok r → r.Serves isFloat) ∧
      (Register.inPool isFloat size = true → ∀ error, frame.free isFloat size = .error error →
        error = .exhausted isFloat size) := by
    refine ⟨fun r found => (Frame.free_fresh found).serves, fun pooled error none => ?_⟩
    rw [free_eq, if_pos pooled] at none
    split at none <;> cases none
    rfl
  cases found : frame.free isFloat size with
  | ok r => exact .step (.touch _) fun _ _ => .pure ⟨rfl, found ▸ outcome⟩
  | error => exact .pure ⟨rfl, found ▸ outcome⟩

theorem liftCause {ε : Type} {pos : Position} {cause : ε → Cause} {res : Except ε α}
    (holds : ∀ v, res = .ok v → given v)
    (reported : c.typed → ∀ error, res = .error error → (cause error).kind ≠ .internal ∨
      (Halt.failure ⟨pos, .causedBy (cause error)⟩).Exhausts) :
    Steady c labels (liftCause pos cause res) given := by
  cases res with
  | ok v => exact .pure (holds v rfl)
  | error error => exact .fail fun is => reported is error rfl

theorem acquire {size : Int} (pooled : c.typed → Register.inPool isFloat size = true)
    (pos : Position) : Steady c labels (acquire pos isFloat size) fun r => r.Serves isFloat := by
  refine .step (.acquire? isFloat size) fun res found => liftCause found.1 fun is error none => ?_
  rw [found.2 (pooled is) error none]
  exact .inr trivial

theorem destination (valued : c.typed → ty.scalar?.isSome = true) (pos : Position) :
    Steady c labels (destination pos ty) fun r => c.typed → r.Serves ty.isFloat := by
  have fresh : Steady c labels (Lower.acquire pos ty.isFloat ty.registerSize) fun r =>
      c.typed → r.Serves ty.isFloat :=
    (acquire (fun is => Ty.inPool_registerSize (valued is)) pos).mono fun _ serves _ => serves
  refine .get (fun _ _ => rfl) fun frame holds => ?_
  split
  · next r top =>
    refine .ite (fun same => pure fun is => ?_) fun _ => fresh
    exact ⟨holds.held is r (List.mem_of_mem_head? top), beq_iff_eq.mp same,
      Ty.inPool_registerSize (valued is)⟩
  · exact fresh

theorem workFor (targeted : c.typed → dst.Serves isFloat)
    (valued : c.typed → ty.scalar?.isSome = true) (pos : Position) :
    Steady c labels (workFor pos dst ty) fun work => c.typed → work.Serves ty.isFloat := by
  refine .ite (fun same => pure fun is => ?_) fun _ =>
    (acquire (fun is => Ty.inPool_registerSize (valued is)) pos).mono fun _ serves _ => serves
  exact ⟨(targeted is).usable, beq_iff_eq.mp same, Ty.inPool_registerSize (valued is)⟩

theorem savePush (serves : c.typed → r.Serves isFloat) :
    Steady c labels (savePush r) (Code.Proper c.typed labels) :=
  .silent _ ⟨fun _ _ _ => yields_savePush.mpr ⟨rfl, rfl⟩, fun _ _ => rfl, fun _ => rfl,
    fun _ => rfl⟩ fun _ =>
    ⟨rfl, rfl, pushCode_proper serves⟩

theorem restorePop (serves : c.typed → r.Serves isFloat) :
    Steady c labels (restorePop r) (Code.Proper c.typed labels) :=
  .silent _ ⟨fun _ _ _ => yields_restorePop.mpr ⟨rfl, rfl⟩, fun _ _ => rfl, fun _ => rfl,
    fun _ => rfl⟩ fun _ =>
    ⟨rfl, rfl, popCode_proper serves⟩

theorem newLabel : Steady c labels newLabel fun _ => True :=
  .silent (fun frame => (c.env.localLabel (frame.labels + 1), { frame with labels := frame.labels + 1 }))
    { runs := fun env agrees frame => by
        rw [Env.localLabel, agrees.method]
        rfl
      moves := fun _ _ => rfl
      keeps := fun _ => rfl
      still := fun _ => rfl } fun _ => ⟨rfl, rfl, trivial⟩

end Steady

end Lower
end Nasm64
