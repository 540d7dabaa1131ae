import Mathlib.Data.List.Nodup
import Nasm64.Proofs.Flow.Trace
import Nasm64.Proofs.Stack.Discipline
import Nasm64.Proofs.Text.Decimal

/-! The control flow of a method body is that of its statements. -/
namespace Nasm64

open Lower Progress Skeleton

variable {env : Env} {full : Skeleton} {pos stop : Nat} {stmts : List Stmt} {oracle : Oracle}
  {past later : List Event}

theorem Closes.stays (closes : Closes env full stop)
    (leads : Leads (full.advance oracle) ⟨past, stop⟩ next) : next.past = past := by
  rcases Relation.ReflTransGen.cases_head leads with rfl | ⟨mid, step, rest⟩
  · rfl
  rw [advance_label closes.stops] at step
  cases step
  rcases Relation.ReflTransGen.cases_head rest with rfl | ⟨after, step, _⟩
  · rfl
  have beyond : full[stop + 1]? = none := List.getElem?_eq_none (Nat.le_of_eq closes.last)
  simp [advance, beyond] at step

namespace Follows

section

variable (closes : Closes env full stop) (follows : Follows env full stop pos stmts)

include closes follows

theorem ends (runs : Leads (Stmt.advance oracle) ⟨past, stmts⟩ ⟨later, []⟩) :
    Leads (full.advance oracle) ⟨past, pos⟩ ⟨later, stop⟩ := by
  obtain ⟨dst, leads, reached⟩ := follows.leads closes runs
  exact leads.trans (reached.finishes oracle later)

theorem performed (leads : Leads (full.advance oracle) ⟨past, pos⟩ ⟨later, dst⟩) :
    ∃ left, Leads (Stmt.advance oracle) ⟨past, stmts⟩ ⟨later, left⟩ := by
  have records := advance_records oracle full
  have begins : past <+: later := records.past_begins leads
  rcases Stmt.advance_unbounded oracle ⟨past, stmts⟩ (later.length + 1) with
    ⟨final, runs⟩ | ⟨next, runs, long⟩
  · have within : later <+: final := by
      rcases leads.total (follows.ends closes runs) with ahead | behind
      · exact records.past_begins ahead
      · exact (closes.stays behind) ▸ List.prefix_rfl
    exact (Stmt.advance_records oracle).passes runs begins within
  · obtain ⟨other, reached, _⟩ := follows.leads closes runs
    rcases leads.total reached with ahead | behind
    · exact (Stmt.advance_records oracle).passes runs begins (records.past_begins ahead)
    · have short := (records.past_begins behind).length_le
      simp only at short
      omega

theorem ended (leads : Leads (full.advance oracle) ⟨past, pos⟩ ⟨later, stop⟩) :
    Leads (Stmt.advance oracle) ⟨past, stmts⟩ ⟨later, []⟩ := by
  obtain ⟨left, runs⟩ := follows.performed closes leads
  rcases Stmt.advance_progress oracle later left with ends | ⟨event, rest, more⟩
  · exact runs.trans ends
  -- The skeleton would perform the event as well, but nothing is performed at its end.
  obtain ⟨dst, reached, _⟩ := follows.leads closes (runs.trans more)
  rcases leads.total reached with ahead | behind
  · simpa using closes.stays ahead
  · have shorter := ((advance_records oracle full).past_begins behind).length_le
    rw [List.length_append] at shorter
    exact absurd shorter (Nat.not_succ_le_self _)

end

end Follows

def Code.labels (code : Code) : List String := code.filterMap Line.label?

@[simp] theorem Code.labels_append (first second : Code) :
    Code.labels (first ++ second) = first.labels ++ second.labels := List.filterMap_append

theorem Line.label?_of_unmarked {line : Line} (unmarked : line.isMark = false) : line.label? = none := by
  cases line with
  | label => cases unmarked
  | _ => rfl

theorem Code.labels_of_unmarked {code : Code} (unmarked : ∀ line ∈ code, line.isMark = false) :
    code.labels = [] :=
  List.filterMap_eq_nil_iff.mpr fun line mem => Line.label?_of_unmarked (unmarked line mem)

theorem surround_labels (label exit : String) (size : Int64) (saved : List SavedSlot) (body : Code) :
    Code.labels (surround label exit size saved body) = label :: (body.labels ++ [exit]) := by
  have saves : Code.labels (saved.map SavedSlot.save) = [] := by
    refine Code.labels_of_unmarked fun line mem => ?_
    obtain ⟨slot, _, rfl⟩ := List.mem_map.mp mem
    unfold SavedSlot.save
    dsimp only
    split <;> rfl
  have restores : Code.labels (saved.reverse.map SavedSlot.restore) = [] := by
    refine Code.labels_of_unmarked fun line mem => ?_
    obtain ⟨slot, _, rfl⟩ := List.mem_map.mp mem
    unfold SavedSlot.restore
    dsimp only
    split <;> rfl
  simp only [surround, Code.labels_append, saves, restores]
  simp [Code.labels, Line.label?, Line.mov, List.filterMap_cons]

/-- The label of a method that is defined is none of those inside a method. -/
theorem Signature.label_ne_local {sig : Signature} {method : Int} {ending : String}
    (internal : sig.isExternal = false) (plain : '~' ∉ ending.toList) :
    sig.label ≠ ".L" ++ toString method ++ ending := by
  intro same
  have letters := congrArg String.toList same
  simp only [Signature.label, internal, Bool.false_or] at letters
  split at letters
  · rename_i entry
    rw [eq_of_beq entry, String.toList_append, String.toList_append] at letters
    cases letters
  · have tilde : '~' ∈ (".L" ++ toString method ++ ending).toList := by
      rw [← letters]
      simp
    simp only [String.toList_append, List.mem_append] at tilde
    rcases tilde with (inside | inside) | inside
    · exact absurd inside (by decide)
    · exact absurd (sign_or_digit_of_mem_toString inside) (by decide)
    · exact plain inside

theorem Signature.label_not_isInner {sig : Signature} {env : Env}
    (internal : sig.isExternal = false) : ¬ env.IsInner sig.label := by
  rintro (same | ⟨number, same⟩)
  · exact label_ne_local internal (by decide) same
  rw [Env.localLabel, String.append_assoc] at same
  refine label_ne_local internal (fun mem => ?_) same
  rw [String.toList_append, List.mem_append] at mem
  rcases mem with inside | inside
  · exact absurd inside (by decide)
  · exact absurd (isDigit_of_mem_toString inside) (by decide)

namespace Lower.Env

variable {env : Env} {count : Nat}

/-- The labels made for a method: one for its end, and one for each number. -/
def innerLabels (env : Env) (count : Nat) : List String :=
  env.resultLabel :: (List.range' 1 count).map env.localLabel

theorem innerLabels_nodup : (env.innerLabels count).Nodup := by
  refine List.nodup_cons.mpr ⟨fun mem => ?_, ?_⟩
  · obtain ⟨number, _, same⟩ := List.mem_map.mp mem
    exact localLabel_ne_resultLabel number same
  · exact List.Nodup.map (fun _ _ same => localLabel_injective same) List.nodup_range'

theorem isInner_of_mem_innerLabels (mem : name ∈ env.innerLabels count) : env.IsInner name := by
  rcases List.mem_cons.mp mem with rfl | mem
  · exact .inl rfl
  · obtain ⟨number, _, rfl⟩ := List.mem_map.mp mem
    exact .inr ⟨number, rfl⟩

end Lower.Env

theorem Method.lower_traces {method : Method} {env : Env} {code : Code} {next : Frame}
    (run : Yields method.lower env {} code next) : ∃ size saved params skeleton frame after,
    Yields (Stmt.skeletons true (method.body.getD [])) env frame skeleton after ∧
    code = surround env.signature.label env.resultLabel size saved (params ++ skeleton.code) ∧
    (∀ line ∈ params, line.isMark = false) ∧ (∀ item ∈ skeleton, item.isOpaque) ∧
    code.labels = env.signature.label :: (skeleton.labels ++ [env.resultLabel]) ∧
    (skeleton.labels ++ [env.resultLabel]).Perm
      (env.innerLabels (Stmt.labelCounts (method.body.getD []))) ∧
    ∀ dst ∈ skeleton.targets, dst ∈ skeleton.labels ∨ dst = env.resultLabel := by
  obtain ⟨body, last, _, size, saved, lowered, _, rfl⟩ := lower_encloses run
  obtain ⟨params, frame, skeleton, entered, drawn, rfl, traces⟩ :=
    lowerBodyUnchecked_traces (by simp [Frame.Ordinary]) lowered
  have entry : Frame.Performs {} env 0 params frame := (lowerParameters_acts entered).toPerforms
  have steps : ∀ item ∈ skeleton, item.isOpaque := fun item mem => (traces.items item mem).isOpaque
  have own : Code.labels skeleton.code = skeleton.labels :=
    Skeleton.code_filterMap steps Line.label?_of_unmarked (fun _ _ => rfl) fun _ => rfl
  have numbered := traces.labels
  rw [entry.labels] at numbered
  refine ⟨size, saved, params, skeleton, frame, last, drawn, rfl, entry.unmarked, steps, ?_,
    (List.perm_append_singleton _ _).trans (numbered.cons _), traces.closed⟩
  rw [surround_labels, Code.labels_append, Code.labels_of_unmarked entry.unmarked, own, List.nil_append]

/-- Lowering a method keeps the control flow of its body. Its code is that of a skeleton of labels,
jumps and comments, with the code of one simple statement or condition in each step and no label or
jump inside a step. Whatever the outcomes of conditions are, running the skeleton performs the same
events as running the statements, comes to the label at its end exactly when they return or run out,
and performs nothing after a return. -/
theorem control_flow_preserved {env : Env} {method : Method} {code : Code} {next : Frame}
    (run : Yields method.lower env {} code next) :
    ∃ size saved parameters skeleton frame after,
      Yields (Stmt.skeletons true (method.body.getD [])) env frame skeleton after ∧
      code = surround env.signature.label env.resultLabel size saved (parameters ++ skeleton.code) ∧
      (∀ line ∈ parameters, line.isMark = false) ∧ (∀ item ∈ skeleton, item.isOpaque) ∧
      (env.signature.isExternal = false → code.labels.Nodup) ∧
      ∀ oracle : Oracle,
        let full := skeleton ++ [.line (.label env.resultLabel)]
        (∀ past, (∃ left, Leads (Stmt.advance oracle) ⟨[], method.body.getD []⟩ ⟨past, left⟩) ↔
          ∃ position, Leads (full.advance oracle) ⟨[], 0⟩ ⟨past, position⟩) ∧
        (∀ past, Leads (Stmt.advance oracle) ⟨[], method.body.getD []⟩ ⟨past, []⟩ ↔
          Leads (full.advance oracle) ⟨[], 0⟩ ⟨past, skeleton.length⟩) ∧
        ∀ past stmt more position, stmt.isReturn = true →
          Leads (full.advance oracle) ⟨[], 0⟩ ⟨past ++ .statement stmt :: more, position⟩ → more = [] := by
  obtain ⟨size, saved, parameters, skeleton, frame, after, drawn, rfl, unmarked, steps, listed, numbered,
    _⟩ := Method.lower_traces run
  have labels : (skeleton.labels ++ [env.resultLabel]).Nodup :=
    numbered.nodup_iff.mpr Env.innerLabels_nodup
  refine ⟨size, saved, parameters, skeleton, frame, after, drawn, rfl, unmarked, steps, ?_, ?_⟩
  · intro internal
    rw [listed]
    refine List.nodup_cons.mpr ⟨fun member => ?_, labels⟩
    exact Signature.label_not_isInner internal
      (Env.isInner_of_mem_innerLabels (numbered.mem_iff.mp member))
  · intro oracle full
    have closes : Closes env full skeleton.length :=
      ⟨by simpa [full] using labels, by simp [full], by simp [full]⟩
    have follows : Follows env full skeleton.length 0 (method.body.getD []) := by
      have whole : Follows env full skeleton.length 0 (method.body.getD [] ++ []) :=
        .block drawn ⟨[], [.line (.label env.resultLabel)], by simp [full], rfl⟩ (fun _ => rfl)
          (Nat.zero_add _ ▸ .exit)
      simpa using whole
    refine ⟨fun past => ⟨?_, ?_⟩, fun past => ⟨follows.ends closes, follows.ended closes⟩, ?_⟩
    · rintro ⟨left, runs⟩
      obtain ⟨target, leads, _⟩ := follows.leads closes runs
      exact ⟨target, leads⟩
    · rintro ⟨position, leads⟩
      exact follows.performed closes leads
    · intro past stmt more position returns leads
      obtain ⟨left, runs⟩ := follows.performed closes leads
      exact (Stmt.returned runs past stmt more rfl returns).1

/-- A loop that returns from inside a branch. -/
def searchMethod : Method where
  position := {}
  name := "main"
  parameters := []
  result := .void
  body := some [.loop {} (.bool {} true) [.conditional {} (.bool {} false) [.returning {} none]
    (some [.expression {} (.number {} 1 (.prim .i64))])], .expression {} (.number {} 2 (.prim .i64))]

/-- What happens when the branch is taken the second time. -/
def searchEvents : List Event :=
  [.condition (.bool {} true), .condition (.bool {} false),
    .statement (.expression {} (.number {} 1 (.prim .i64))), .condition (.bool {} true),
    .condition (.bool {} false), .statement (.returning {} none)]

theorem control_flow_preserved_search :
    ∃ code next skeleton, Yields searchMethod.lower
        { method := 0, signature := searchMethod.signature, table := {}, settings := none } {} code next ∧
      Leads (Skeleton.advance (fun past => past.length != 2)
        (skeleton ++ [.line (.label ".L0_ret")])) ⟨[], 0⟩ ⟨searchEvents, skeleton.length⟩ := by
  obtain ⟨code, next, run, _⟩ := Yields.of_check searchMethod.lower
    { method := 0, signature := searchMethod.signature, table := {}, settings := none } {}
    (fun _ => true) (by decide +kernel)
  obtain ⟨_, _, _, skeleton, _, _, _, _, _, _, _, flows⟩ := control_flow_preserved run
  obtain ⟨_, ends, _⟩ := flows fun past => past.length != 2
  refine ⟨code, next, skeleton, run, (ends searchEvents).mp ?_⟩
  exact .head rfl (.head rfl (.head rfl (.head rfl (.head rfl (.head rfl (.refl _))))))

end Nasm64
