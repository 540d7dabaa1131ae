import Mathlib.Logic.Relation
import Nasm64.Proofs.Flow.Skeleton

/-! Running statements and running the skeleton that they are lowered to, while an oracle decides the
outcomes of conditions. -/
namespace Nasm64

open Lower Stmt Skeleton

/-- The outcome of a condition, given what was performed up to its evaluation. -/
abbrev Oracle := List Event → Bool

structure Progress (α : Type) where
  past : List Event
  left : α

namespace Progress

variable {α : Type} {step : Progress α → Option (Progress α)} {start now next : Progress α}

/-- Any number of steps leads from one state to another. -/
def Leads (step : Progress α → Option (Progress α)) : Progress α → Progress α → Prop :=
  Relation.ReflTransGen fun now next => step now = some next

theorem Leads.refl (now : Progress α) : Leads step now now := Relation.ReflTransGen.refl

theorem Leads.trans (first : Leads step start now) (second : Leads step now next) :
    Leads step start next := Relation.ReflTransGen.trans first second

theorem Leads.head (first : step start = some now) (rest : Leads step now next) :
    Leads step start next := Relation.ReflTransGen.head first rest

theorem Leads.total (first : Leads step start now) (second : Leads step start next) :
    Leads step now next ∨ Leads step next now := by
  refine Relation.ReflTransGen.total_of_right_unique ?_ first second
  intro state one other same also
  exact Option.some.inj (same.symm.trans also)

def Records (step : Progress α → Option (Progress α)) : Prop :=
  ∀ now next, step now = some next →
    next.past = now.past ∨ ∃ event, next.past = now.past ++ [event]

theorem Records.past_begins (records : Records step) (leads : Leads step start now) :
    start.past <+: now.past := by
  induction leads with
  | refl => exact List.prefix_rfl
  | tail _ step ih =>
    rcases records _ _ step with same | ⟨event, more⟩
    · exact same ▸ ih
    · exact more ▸ ih.trans (List.prefix_append _ _)

/-- A run passes through every past between its ends. -/
theorem Records.passes (records : Records step) (leads : Leads step start now) {past : List Event}
    (later : start.past <+: past) (earlier : past <+: now.past) :
    ∃ left, Leads step start ⟨past, left⟩ := by
  induction leads with
  | refl => exact ⟨start.left, (List.IsPrefix.eq_of_length_le earlier later.length_le) ▸ .refl _⟩
  | @tail now next leads step ih =>
    by_cases before : past <+: now.past
    · exact ih before
    · have reached : past = next.past := by
        rcases records _ _ step with same | ⟨event, more⟩
        · exact absurd (same ▸ earlier) before
        · rw [more] at earlier ⊢
          exact (List.prefix_concat_iff.mp earlier).resolve_right before
      exact ⟨next.left, reached ▸ Relation.ReflTransGen.tail leads step⟩

end Progress

open Progress

namespace Stmt

/-- Runs the first of a list of statements, or enters it. A return drops all that is left. -/
def advance (oracle : Oracle) : Progress (List Stmt) → Option (Progress (List Stmt))
  | ⟨_, []⟩ => none
  | ⟨past, block _ body :: rest⟩ => some ⟨past, body ++ rest⟩
  | ⟨past, conditional _ condition whenTrue otherwise :: rest⟩ =>
    let now := past ++ [.condition condition]
    some ⟨now, (if oracle now then whenTrue else otherwise.getD []) ++ rest⟩
  | ⟨past, loop position condition body :: rest⟩ =>
    let now := past ++ [.condition condition]
    some ⟨now, if oracle now then body ++ loop position condition body :: rest else rest⟩
  | ⟨past, returning position value :: _⟩ =>
    some ⟨past ++ [.statement (returning position value)], []⟩
  | ⟨past, stmt :: rest⟩ => some ⟨past ++ [.statement stmt], rest⟩

theorem advance_records (oracle : Oracle) : Records (advance oracle) := by
  intro now next step
  unfold advance at step
  split at step <;> cases step
  · exact .inl rfl
  all_goals exact .inr ⟨_, rfl⟩

mutual

/-- The number of blocks that are entered directly. -/
def entries : Stmt → Nat
  | block _ body => allEntries body + 1
  | _ => 0

def allEntries : List Stmt → Nat
  | [] => 0
  | stmt :: rest => stmt.entries + allEntries rest

end

theorem allEntries_append (first second : List Stmt) :
    allEntries (first ++ second) = allEntries first + allEntries second := by
  induction first with
  | nil => simp [allEntries]
  | cons stmt rest ih => rw [List.cons_append, allEntries, allEntries, ih, Nat.add_assoc]

/-- Statements either come to an end or perform one more event. -/
theorem advance_progress (oracle : Oracle) (past : List Event) (stmts : List Stmt) :
    Leads (advance oracle) ⟨past, stmts⟩ ⟨past, []⟩ ∨
      ∃ event left, Leads (advance oracle) ⟨past, stmts⟩ ⟨past ++ [event], left⟩ := by
  induction counted : allEntries stmts using Nat.strongRecOn generalizing stmts with
  | ind count ih =>
    match stmts with
    | [] => exact .inl (.refl _)
    | block pos body :: rest =>
      have entered : advance oracle ⟨past, block pos body :: rest⟩ = some ⟨past, body ++ rest⟩ := rfl
      have fewer : allEntries (body ++ rest) < count := by
        rw [← counted, allEntries_append, allEntries, entries]
        omega
      refine (ih _ fewer _ rfl).imp (.head entered) ?_
      rintro ⟨event, left, leads⟩
      exact ⟨event, left, .head entered leads⟩
    | conditional .. :: _ | loop .. :: _ | returning .. :: _ | declaration .. :: _
    | assignment .. :: _ | expression .. :: _ => exact .inr ⟨_, _, .head rfl (.refl _)⟩

/-- A run ends, or its past grows without bound. -/
theorem advance_unbounded (oracle : Oracle) (start : Progress (List Stmt)) (length : Nat) : (∃ past,
    Leads (advance oracle) start ⟨past, []⟩) ∨ ∃ next, Leads (advance oracle) start next ∧ length ≤
    next.past.length := by
  induction length with
  | zero => exact .inr ⟨start, .refl _, Nat.zero_le _⟩
  | succ length ih =>
    rcases ih with ends | ⟨next, leads, long⟩
    · exact .inl ends
    · rcases advance_progress oracle next.past next.left with ends | ⟨event, left, longer⟩
      · exact .inl ⟨_, leads.trans ends⟩
      · exact .inr ⟨_, leads.trans longer, by simp; omega⟩

theorem advance_returning (step : advance oracle now = some next)
    (performed : next.past = now.past ++ [.statement stmt]) (returns : stmt.isReturn = true) :
    next.left = [] := by
  unfold advance at step
  split at step <;> cases step
  · simp at performed
  · simp at performed
  · simp at performed
  · rfl
  · rename_i other _ _ _ _ apart
    simp only [List.append_cancel_left_eq, List.cons.injEq, and_true, Event.statement.injEq] at performed
    subst performed
    cases other with
    | returning pos v => exact (apart pos v rfl).elim
    | _ => cases returns

def Returned (now : Progress (List Stmt)) : Prop :=
  ∀ before stmt after, now.past = before ++ .statement stmt :: after → stmt.isReturn = true →
    after = [] ∧ now.left = []

theorem Returned.step (returned : Returned now) (step : advance oracle now = some next) :
    Returned next := by
  have given : now.left ≠ [] := by
    rintro nothing
    rw [show now = ⟨now.past, []⟩ by rw [← nothing]] at step
    cases step
  -- Something was left to run, so no return was performed before this step.
  have none : ∀ stmt, .statement stmt ∈ now.past → stmt.isReturn = true → False := by
    intro stmt mem returns
    obtain ⟨before, after, same⟩ := List.append_of_mem mem
    exact given (returned before stmt after same returns).2
  intro before stmt after same returns
  rcases advance_records oracle now next step with kept | ⟨event, grown⟩
  · exact (none stmt (by rw [← kept, same]; simp) returns).elim
  rw [grown] at same
  rcases List.eq_nil_or_concat after with rfl | ⟨more, final, rfl⟩
  · obtain ⟨_, last⟩ := List.append_inj' same rfl
    cases last
    exact ⟨rfl, advance_returning step grown returns⟩
  · rw [List.concat_eq_append, ← List.cons_append, ← List.append_assoc] at same
    obtain ⟨early, _⟩ := List.append_inj' same rfl
    exact (none stmt (by rw [early]; simp) returns).elim

/-- From the start of a body, a return is the last event. -/
theorem returned (runs : Leads (advance oracle) ⟨[], stmts⟩ next) : Returned next := by
  induction runs with
  | refl =>
    intro before stmt after same
    simp at same
  | tail _ step ih => exact ih.step step

end Stmt

namespace Skeleton

def position? (skeleton : Skeleton) (name : String) : Option Nat :=
  skeleton.findIdx? fun item => item.label? == some name

/-- Runs the item at a position. A conditional jump follows the outcome of the condition evaluated
last. -/
def advance (oracle : Oracle) (skeleton : Skeleton) : Progress Nat → Option (Progress Nat)
  | ⟨past, position⟩ =>
    match skeleton[position]? with
    | some (.step event _) => some ⟨past ++ [event], position + 1⟩
    | some (.line (.unary .jmp (.symbol name))) =>
      (skeleton.position? name).map fun target => ⟨past, target⟩
    | some (.line (.unary .je (.symbol name))) =>
      if oracle past then some ⟨past, position + 1⟩
      else (skeleton.position? name).map fun target => ⟨past, target⟩
    | some (.line (.label _)) => some ⟨past, position + 1⟩
    | some (.line (.comment _)) => some ⟨past, position + 1⟩
    | _ => none

theorem advance_records (oracle : Oracle) (skeleton : Skeleton) :
    Records (advance oracle skeleton) := by
  intro now next step
  unfold advance at step
  dsimp only at step
  split at step
  · cases step
    exact .inr ⟨_, rfl⟩
  · obtain ⟨_, _, rfl⟩ := Option.map_eq_some_iff.mp step
    exact .inl rfl
  · split at step
    · cases step
      exact .inl rfl
    · obtain ⟨_, _, rfl⟩ := Option.map_eq_some_iff.mp step
      exact .inl rfl
  · cases step
    exact .inl rfl
  · cases step
    exact .inl rfl
  · cases step

end Skeleton

namespace Skeleton

variable {full items first second : Skeleton} {item : Item} {pos : Nat} {name : String}

def Has (full : Skeleton) (position : Nat) (items : Skeleton) : Prop :=
  ∃ before after, full = before ++ items ++ after ∧ before.length = position

theorem Has.append (has : full.Has pos (first ++ second)) :
    full.Has pos first ∧ full.Has (pos + first.length) second := by
  obtain ⟨before, after, rfl, rfl⟩ := has
  exact ⟨⟨before, second ++ after, by simp, rfl⟩, ⟨before ++ first, after, by simp, by simp⟩⟩

theorem Has.head (has : full.Has pos (item :: items)) : full[pos]? = some item := by
  obtain ⟨before, after, rfl, rfl⟩ := has
  simp

theorem Has.tail (has : full.Has pos (item :: items)) : full.Has (pos + 1) items := by
  have split : full.Has pos ([item] ++ items) := has
  exact split.append.2

/-- Labels are found where they are, since they are different ones. -/
theorem position?_of_label (distinct : full.labels.Nodup)
    (here : full[pos]? = some (.line (.label name))) : full.position? name = some pos := by
  obtain ⟨inside, same⟩ := List.getElem?_eq_some_iff.mp here
  refine List.findIdx?_eq_some_iff_getElem.mpr ⟨inside, by simp [same, Item.label?, Line.label?], ?_⟩
  intro earlier before
  have apart := List.pairwise_iff_getElem.mp (List.pairwise_filterMap.mp distinct) earlier pos
    (Nat.lt_trans before inside) inside before
  simp only [same, Item.label?, Line.label?, Bool.not_eq_true, beq_eq_false_iff_ne] at apart ⊢
  exact fun found => apart name found name rfl rfl

section

variable {oracle : Oracle} {past : List Event} {dst : Nat}

theorem advance_step {event : Event} {code : Code} (here : full[pos]? = some (.step event code)) :
    full.advance oracle ⟨past, pos⟩ = some ⟨past ++ [event], pos + 1⟩ := by
  simp [advance, here]

theorem advance_label (here : full[pos]? = some (.line (.label name))) :
    full.advance oracle ⟨past, pos⟩ = some ⟨past, pos + 1⟩ := by
  simp [advance, here]

theorem advance_jump (distinct : full.labels.Nodup) (here : full[pos]? = some (.line (.jump name)))
    (there : full[dst]? = some (.line (.label name))) :
    full.advance oracle ⟨past, pos⟩ = some ⟨past, dst⟩ := by
  simp [advance, here, Line.jump, position?_of_label distinct there]

end

end Skeleton

structure Closes (env : Env) (full : Skeleton) (stop : Nat) : Prop where
  distinct : full.labels.Nodup
  stops : full[stop]? = some (.line (.label env.resultLabel))
  last : full.length = stop + 1

/-- The items from a position on continue with the given statements, up to the end of the method.
Loops come back to where their own items start. -/
inductive Follows (env : Env) (full : Skeleton) (stop : Nat) : Nat → List Stmt → Prop
  | exit : Follows env full stop stop []
  | glide {position target : Nat} {stmts : List Stmt} (glides : ∀ oracle past,
      full.advance oracle ⟨past, position⟩ = some ⟨past, target⟩)
    (after : Follows env full stop target stmts) : Follows env full stop position stmts
  | proceed {position : Nat} {last : Bool} {stmt : Stmt} {stmts : List Stmt} {items : Skeleton}
    {frame next : Frame} (drawn : Yields (stmt.skeleton last) env frame items next)
    (has : full.Has position items) (goesOn : stmt.isReturn = false)
    (ends : last = true → stmts = []) (after : Follows env full stop (position + items.length) stmts) :
    Follows env full stop position (stmt :: stmts)
  | leave {position : Nat} {last : Bool} {place : Position} {value : Option Expr} {stmts : List Stmt}
    {items : Skeleton} {frame next : Frame}
    (drawn : Yields ((Stmt.returning place value).skeleton last) env frame items next)
    (has : full.Has position items)
    (after : last = true → Follows env full stop (position + items.length) []) :
    Follows env full stop position (.returning place value :: stmts)

namespace Follows

variable {env : Env} {full items : Skeleton} {pos stop : Nat} {stmts rest : List Stmt}
  {frame next : Frame} {top : Bool}

theorem remark {comment : Code} (commented : Yields (commentFor stmt) env frame comment next)
    (has : full.Has pos (comment.map .line))
    (after : Follows env full stop (pos + comment.length) stmts) :
    Follows env full stop pos stmts := by
  rw [(yields_commentFor.mp commented).1] at has after
  by_cases wanted : env.hasFeature .asmComments = true <;> simp only [wanted] at has after
  · exact .glide (fun _ _ => by simp [Skeleton.advance, has.head]) after
  · exact after

theorem block (drawn : Yields (skeletons top stmts) env frame items next) (has : full.Has pos items)
    (ends : top = true → rest = []) (after : Follows env full stop (pos + items.length) rest) :
    Follows env full stop pos (stmts ++ rest) := by
  induction stmts generalizing frame items pos with
  | nil =>
    obtain ⟨rfl, rfl⟩ := yields_pure.mp drawn
    exact after
  | cons stmt more ih =>
    simp only [skeletons, yields_bind] at drawn
    obtain ⟨comment, _, commented, own, mid, drawn, run⟩ := drawn
    by_cases cut : stmt.isReturn = true ∧ more ≠ []
    · -- What comes after a return has no items.
      obtain ⟨returns, given⟩ := cut
      obtain ⟨following, others, rfl⟩ := List.exists_cons_of_ne_nil given
      simp only [returns, yields_bind, yields_pure] at run
      obtain ⟨_, _, _, rfl, rfl⟩ := run
      obtain ⟨noted, placed⟩ := has.append
      refine remark commented noted ?_
      rw [List.length_map] at placed
      cases stmt with
      | returning place v =>
        refine .leave drawn placed fun last => ?_
        simp at last
      | _ => cases returns
    · have continued : Yields (do return comment.map .line ++ own ++ (← skeletons top more)) env
          mid items next := by
        cases returns : stmt.isReturn with
        | false => simpa only [returns] using run
        | true =>
          obtain rfl : more = [] := by
            by_contra given
            exact cut ⟨returns, given⟩
          simpa only [returns] using run
      simp only [yields_bind, yields_pure] at continued
      obtain ⟨others, _, following, rfl, rfl⟩ := continued
      obtain ⟨both, later⟩ := has.append
      obtain ⟨noted, placed⟩ := both.append
      rw [List.length_map] at placed
      have beyond : Follows env full stop (pos + comment.length + own.length) (more ++ rest) := by
        refine ih following ?_ ?_
        · simpa [Nat.add_assoc] using later
        · simpa [Nat.add_assoc] using after
      refine remark commented noted ?_
      have nothing : (top && more.isEmpty) = true → more ++ rest = [] := by
        intro last
        obtain ⟨whole, empty⟩ := Bool.and_eq_true_iff.mp last
        rw [List.isEmpty_iff.mp empty, ends whole, List.append_nil]
      cases returns : stmt.isReturn with
      | false => exact .proceed drawn placed returns nothing beyond
      | true =>
        cases stmt with
        | returning place v => exact .leave drawn placed fun last => nothing last ▸ beyond
        | _ => cases returns

section

variable {oracle : Oracle} {past : List Event}

theorem tests {cond : Expr} {code : Code} {name : String} {dst : Nat} (distinct : full.labels.Nodup)
    (has : full.Has pos ([.step (.condition cond) code, .line (.jumpIfZero name)] ++ items))
    (there : full[dst]? = some (.line (.label name))) :
    Leads (full.advance oracle) ⟨past, pos⟩
      ⟨past ++ [.condition cond], if oracle (past ++ [.condition cond]) then pos + 2 else dst⟩ := by
  refine .head (advance_step has.head) (.head ?_ (.refl _))
  simp only [Skeleton.advance, has.tail.head, Line.jumpIfZero, position?_of_label distinct there]
  split <;> rfl

variable {last : Bool} {place : Position} {cond : Expr} {body : List Stmt}

variable (closes : Closes env full stop)

include closes

theorem chooses
    (drawn : Yields ((conditional place cond body none).skeleton last) env frame items next)
    (has : full.Has pos items) (after : Follows env full stop (pos + items.length) stmts) :
    ∃ dst, Leads (full.advance oracle) ⟨past, pos⟩ ⟨past ++ [.condition cond], dst⟩ ∧
      Follows env full stop dst ((if oracle (past ++ [.condition cond]) then body else []) ++
        stmts) := by
  simp only [skeleton, yields_bind, yields_pure] at drawn
  obtain ⟨_, _, tested, done, _, _, inner, _, drawn, rfl, rfl⟩ := drawn
  obtain ⟨code, _, rfl⟩ := yields_asStep.mp tested
  obtain ⟨_, inside, _⟩ := yields_inScope.mp drawn
  obtain ⟨opening, closing⟩ := has.append
  obtain ⟨testing, looking⟩ := opening.append
  have there : full[pos + 2 + inner.length]? = some (.line (.label done)) := by
    simpa +arith using closing.head
  have beyond : Follows env full stop (pos + 2 + inner.length) stmts := by
    refine .glide (fun _ _ => advance_label there) ?_
    simpa +arith using after
  refine ⟨_, tests closes.distinct testing there, ?_⟩
  split
  · exact .block inside looking (by simp) beyond
  · exact beyond

theorem branches
    (drawn : Yields ((conditional place cond body (some otherwise)).skeleton last) env frame items
      next)
    (has : full.Has pos items) (after : Follows env full stop (pos + items.length) stmts) :
    ∃ dst, Leads (full.advance oracle) ⟨past, pos⟩ ⟨past ++ [.condition cond], dst⟩ ∧
      Follows env full stop dst ((if oracle (past ++ [.condition cond]) then body else otherwise) ++
        stmts) := by
  simp only [skeleton, yields_bind, yields_pure] at drawn
  obtain ⟨_, _, tested, done, _, _, other, _, _, inner, _, drawn, outer, _, redrawn, rfl, rfl⟩ := drawn
  obtain ⟨code, _, rfl⟩ := yields_asStep.mp tested
  obtain ⟨_, inside, _⟩ := yields_inScope.mp drawn
  obtain ⟨_, beside, _⟩ := yields_inScope.mp redrawn
  obtain ⟨both, closing⟩ := has.append
  obtain ⟨most, turning⟩ := both.append
  obtain ⟨opening, switching⟩ := most.append
  obtain ⟨testing, looking⟩ := opening.append
  have there : full[pos + 2 + inner.length + 1]? = some (.line (.label other)) := by
    simpa +arith using switching.tail.head
  have finally_ : full[pos + 2 + inner.length + 2 + outer.length]? =
      some (.line (.label done)) := by
    simpa +arith using closing.head
  have beyond : Follows env full stop (pos + 2 + inner.length + 2 + outer.length) stmts := by
    refine .glide (fun _ _ => advance_label finally_) ?_
    simpa +arith using after
  refine ⟨_, tests closes.distinct testing there, ?_⟩
  split
  · refine .block inside looking (by simp)
      (.glide (fun _ _ => advance_jump closes.distinct ?_ finally_) beyond)
    simpa +arith using switching.head
  · refine .glide (fun _ _ => advance_label there) (.block beside ?_ (by simp) beyond)
    simpa +arith using turning

theorem repeats (drawn : Yields ((loop place cond body).skeleton last) env frame items next)
    (has : full.Has pos items) (ends : last = true → stmts = [])
    (after : Follows env full stop (pos + items.length) stmts) :
    ∃ dst, Leads (full.advance oracle) ⟨past, pos⟩ ⟨past ++ [.condition cond], dst⟩ ∧
      Follows env full stop dst (if oracle (past ++ [.condition cond]) then body ++
        .loop place cond body :: stmts else stmts) := by
  have again : Follows env full stop pos (.loop place cond body :: stmts) :=
    .proceed drawn has rfl ends after
  simp only [skeleton, yields_bind, yields_pure] at drawn
  obtain ⟨start, _, _, done, _, _, _, _, tested, inner, _, drawn, rfl, rfl⟩ := drawn
  obtain ⟨code, _, rfl⟩ := yields_asStep.mp tested
  obtain ⟨_, inside, _⟩ := yields_inScope.mp drawn
  obtain ⟨opening, closing⟩ := has.append
  obtain ⟨testing, looking⟩ := opening.append
  have here : full[pos]? = some (.line (.label start)) := testing.head
  have there : full[pos + 1 + 2 + inner.length + 1]? = some (.line (.label done)) := by
    simpa +arith using closing.tail.head
  have beyond : Follows env full stop (pos + 1 + 2 + inner.length + 1) stmts := by
    refine .glide (fun _ _ => advance_label there) ?_
    simpa +arith using after
  refine ⟨_, .head (advance_label here) (tests closes.distinct testing.tail there), ?_⟩
  split
  · refine .block inside ?_ (by simp)
      (.glide (fun _ _ => advance_jump closes.distinct ?_ here) again)
    · simpa +arith using looking
    · simpa +arith using closing.head
  · exact beyond

theorem simulates (follows : Follows env full stop pos stmts) {next : Progress (List Stmt)}
    (step : advance oracle ⟨past, stmts⟩ = some next) :
    ∃ dst, Leads (full.advance oracle) ⟨past, pos⟩ ⟨next.past, dst⟩ ∧
      Follows env full stop dst next.left := by
  induction follows with
  | exit => cases step
  | glide glides _ ih =>
    obtain ⟨dst, leads, after⟩ := ih step
    exact ⟨dst, .head (glides _ _) leads, after⟩
  | @leave _ last _ _ _ _ _ _ drawn has after =>
    cases step
    simp only [skeleton, yields_bind, yields_read, yields_pure] at drawn
    obtain ⟨_, _, stepped, _, _, ⟨rfl, rfl⟩, rfl, rfl⟩ := drawn
    obtain ⟨code, _, rfl⟩ := yields_asStep.mp stepped
    refine ⟨_, .head (advance_step has.head) (.refl _), ?_⟩
    cases last with
    | true => exact after rfl
    | false => exact .glide (fun _ _ => advance_jump closes.distinct has.tail.head closes.stops) .exit
  | @proceed pos last stmt stmts items _ _ drawn has goesOn ends after ih =>
    cases stmt with
    | returning => cases goesOn
    | declaration | assignment | expression =>
      cases step
      obtain ⟨code, _, rfl⟩ := yields_asStep.mp drawn
      exact ⟨_, .head (advance_step has.head) (.refl _), after⟩
    | block place body =>
      cases step
      obtain ⟨_, inside, _⟩ := yields_inScope.mp drawn
      exact ⟨pos, .refl _, .block inside has ends after⟩
    | conditional place cond whenTrue otherwise =>
      cases step
      cases otherwise with
      | none => exact chooses closes drawn has after
      | some otherwise => exact branches closes drawn has after
    | loop place cond body =>
      cases step
      exact repeats closes drawn has ends after

theorem leads (follows : Follows env full stop pos stmts) {next : Progress (List Stmt)}
    (runs : Leads (advance oracle) ⟨past, stmts⟩ next) :
    ∃ dst, Leads (full.advance oracle) ⟨past, pos⟩ ⟨next.past, dst⟩ ∧
      Follows env full stop dst next.left := by
  induction runs with
  | refl => exact ⟨pos, .refl _, follows⟩
  | tail _ step ih =>
    obtain ⟨mid, first, reached⟩ := ih
    obtain ⟨dst, second, after⟩ := reached.simulates closes step
    exact ⟨dst, first.trans second, after⟩

omit closes in
theorem finishes (oracle : Oracle) (past : List Event) (follows : Follows env full stop pos []) :
    Leads (full.advance oracle) ⟨past, pos⟩ ⟨past, stop⟩ := by
  generalize nothing : ([] : List Stmt) = stmts at follows
  induction follows with
  | exit => exact .refl _
  | glide glides _ ih => exact .head (glides _ _) (ih nothing)
  | proceed | leave => cases nothing

end

end Follows

end Nasm64
