import Mathlib.Algebra.Order.Ring.Int
import Nasm64.Lower.Program

/-! Methods are lowered by tasks that run beside each other, at most so many at a time. The order in
which they start and end does not show in the answer, which is that of one method after the other. Only
a method that never ends shows: a loop that stops at a failure may not come to it, but the tasks do. -/
namespace Nasm64.Program

open Lower

variable {α β : Type}

/-- Where a task stands. At its end it writes its own answer and nothing else. -/
inductive Stage (β : Type) where
  | waiting
  | running
  | ended (answer : Except Failure β)

namespace Stage

def isRunning : Stage β → Bool
  | running => true
  | _ => false

def answer? : Stage β → Option (Except Failure β)
  | ended answer => some answer
  | _ => none

def remaining : Stage β → Nat
  | waiting => 2
  | running => 1
  | ended _ => 0

end Stage

/-- How a task ends. It does not when it comes to no answer at all. -/
def ending? : Except Halt β → Option (Except Failure β)
  | .ok output => some (.ok output)
  | .error (.failure failure) => some (.error failure)
  | .error (.fault _) => none

theorem ending?_eq_some {answer : Except Failure β} : ending? res = some answer ↔ res =
    answer.mapError .failure := by
  obtain (failure | fault) | output := res <;> cases answer <;> constructor <;> rintro ⟨⟩ <;> rfl

theorem fault?_eq_some {res : Except Halt β} : fault? res = some fault ↔ res = .error (.fault fault) := by
  obtain (_ | _) | _ := res <;> constructor <;> rintro ⟨⟩ <;> rfl

inductive Move where
  | start (index : Nat)
  | finish (index : Nat)
deriving DecidableEq, Repr

/-- The tasks of some jobs, in the order of the jobs. -/
abbrev Pool (β : Type) := List (Stage β)

namespace Pool

def initial (jobs : List α) : Pool β := jobs.map fun _ => .waiting

def active (pool : Pool β) : Nat := pool.countP Stage.isRunning

/-- The pool after a move that can be made. A task starts when one of the places is free, and gives
its place back at its end. -/
def advance? (jobs : List α) (run : α → Except Halt β) (places : Nat) (pool : Pool β) :
    Move → Option (Pool β)
  | .start index =>
    match pool[index]? with
    | some .waiting => if pool.active < places then some (pool.set index .running) else none
    | _ => none
  | .finish index =>
    match pool[index]?, jobs[index]? with
    | some .running, some job =>
      (ending? (run job)).map fun answer => pool.set index (.ended answer)
    | _, _ => none

/-- The pool after a sequence of moves, from the start. -/
def play? (jobs : List α) (run : α → Except Halt β) (places : Nat) (moves : List Move) :
    Option (Pool β) :=
  moves.foldlM (advance? jobs run places) (initial jobs)

/-- Once all tasks have ended, the first failure in the order of the jobs, or all outputs. -/
def answer? (pool : Pool β) : Option (Except Halt (List β)) :=
  (pool.mapM Stage.answer?).map fun answers => (answers.mapM id).mapError .failure

section

variable {jobs : List α} {run : α → Except Halt β} {places : Nat} {pool next : Pool β}

structure Reflects (jobs : List α) (run : α → Except Halt β) (pool : Pool β) : Prop where
  length : pool.length = jobs.length
  answers : ∀ {index : Nat} {job : α} {answer : Except Failure β}, jobs[index]? = some job →
    pool[index]? = some (.ended answer) → run job = answer.mapError .failure

theorem reflects_initial (jobs : List α) (run : α → Except Halt β) :
    Reflects jobs run (initial jobs) where
  length := by simp [initial]
  answers := by
    intro i job answer known stage
    rw [initial, List.getElem?_map, known] at stage
    cases stage

theorem advance?_set {move : Move} (moved : advance? jobs run places pool move = some next) :
    ∃ i before after, pool[i]? = some before ∧ next = pool.set i after ∧
      before.remaining = after.remaining + 1 ∧ ∀ {job answer}, jobs[i]? = some job →
      after = .ended answer → run job = answer.mapError .failure := by
  cases move with
  | start i =>
    simp only [advance?] at moved
    split at moved
    · next waiting =>
      split at moved
      · exact ⟨i, _, _, waiting, (Option.some.inj moved).symm, rfl, fun _ same => by cases same⟩
      · cases moved
    · cases moved
  | finish i =>
    simp only [advance?] at moved
    split at moved
    · next job running known =>
      obtain ⟨answer, ended, rfl⟩ := Option.map_eq_some_iff.mp moved
      refine ⟨i, _, _, running, rfl, rfl, fun wanted same => ?_⟩
      cases same
      cases known.symm.trans wanted
      exact ending?_eq_some.mp ended
    · cases moved

theorem Reflects.advance {move : Move} (reflects : Reflects jobs run pool)
    (moved : advance? jobs run places pool move = some next) : Reflects jobs run next := by
  obtain ⟨i, before, after, _, rfl, _, ended⟩ := advance?_set moved
  refine ⟨by simpa using reflects.length, fun {other} _ _ known stage => ?_⟩
  rw [List.getElem?_set] at stage
  split at stage
  · next same =>
    subst same
    split at stage
    · exact ended known (Option.some.inj stage)
    · cases stage
  · exact reflects.answers known stage

def remaining (pool : Pool β) : Nat := (pool.map Stage.remaining).sum

theorem remaining_set (known : pool[i]? = some before) (after : Stage β) :
    remaining (pool.set i after) + before.remaining = pool.remaining + after.remaining := by
  induction pool generalizing i with
  | nil => simp at known
  | cons stage rest ih =>
    cases i with
    | zero =>
      cases known
      simp only [remaining, List.set_cons_zero, List.map_cons, List.sum_cons]
      omega
    | succ i =>
      have further := ih (List.getElem?_cons_succ ▸ known)
      simp only [remaining, List.set_cons_succ, List.map_cons, List.sum_cons] at further ⊢
      omega

theorem remaining_advance {move : Move} (moved : advance? jobs run places pool move = some next) :
    next.remaining + 1 = pool.remaining := by
  obtain ⟨i, before, after, known, rfl, less, _⟩ := advance?_set moved
  have left := remaining_set known after
  omega

theorem Reflects.foldlM {moves : List Move} (reflects : Reflects jobs run pool)
    (played : moves.foldlM (advance? jobs run places) pool = some next) :
    Reflects jobs run next ∧ next.remaining + moves.length = pool.remaining := by
  induction moves generalizing pool with
  | nil =>
    cases played
    exact ⟨reflects, rfl⟩
  | cons move rest ih =>
    obtain ⟨mid, moved, played⟩ := Option.bind_eq_some_iff.mp played
    have left := remaining_advance moved
    obtain ⟨reflected, further⟩ := ih (reflects.advance moved) played
    refine ⟨reflected, ?_⟩
    simp only [List.length_cons]
    omega

theorem remaining_initial (jobs : List α) : remaining (initial jobs : Pool β) = 2 * jobs.length := by
  induction jobs with
  | nil => rfl
  | cons job rest ih =>
    simp only [remaining, initial, List.map_cons, List.sum_cons, Stage.remaining,
      List.length_cons] at ih ⊢
    omega

theorem eq_map_ended (answered : pool.mapM Stage.answer? = some answers) : pool = answers.map .ended := by
  induction pool generalizing answers with
  | nil =>
    cases answered
    rfl
  | cons stage rest ih =>
    simp only [List.mapM_cons, Option.bind_eq_bind, Option.bind_eq_some_iff] at answered
    obtain ⟨first, here, others, later, same⟩ := answered
    cases same
    cases stage with
    | waiting | running => cases here
    | ended answer =>
      cases here
      rw [ih later, List.map_cons]

theorem open_of_answer?_none (unanswered : pool.answer? = none) :
    ∃ i : Nat, pool[i]? = some .waiting ∨ pool[i]? = some .running := by
  rw [answer?, Option.map_eq_none_iff] at unanswered
  induction pool with
  | nil => simp at unanswered
  | cons stage rest ih =>
    cases stage with
    | waiting => exact ⟨0, .inl rfl⟩
    | running => exact ⟨0, .inr rfl⟩
    | ended answer =>
      cases ended : rest.mapM Stage.answer? with
      | none =>
        obtain ⟨i, known⟩ := ih ended
        exact ⟨i + 1, known⟩
      | some answers => simp [Stage.answer?, ended] at unanswered

theorem remaining_of_answer? (answered : pool.answer? = some answer) : pool.remaining = 0 := by
  obtain ⟨answers, ended, _⟩ := Option.map_eq_some_iff.mp answered
  rw [eq_map_ended ended, remaining, List.map_map]
  exact List.sum_eq_zero_iff_forall_eq_nat.mpr fun _ mem => by
    obtain ⟨_, _, rfl⟩ := List.mem_map.mp mem
    rfl

theorem remaining_of_answer?_none (unanswered : pool.answer? = none) : 0 < pool.remaining := by
  obtain ⟨i, waiting | running⟩ := open_of_answer?_none unanswered
  · exact List.sum_pos_iff_exists_pos_nat.mpr
      ⟨2, List.mem_map.mpr ⟨_, List.mem_of_getElem? waiting, rfl⟩, by decide⟩
  · exact List.sum_pos_iff_exists_pos_nat.mpr
      ⟨1, List.mem_map.mpr ⟨_, List.mem_of_getElem? running, rfl⟩, by decide⟩

theorem running_of_active (busy : 0 < pool.active) : ∃ i : Nat, pool[i]? = some .running := by
  obtain ⟨stage, mem, runs⟩ := List.countP_pos_iff.mp busy
  obtain ⟨i, known⟩ := List.getElem?_of_mem mem
  cases stage with
  | running => exact ⟨i, known⟩
  | waiting | ended => cases runs

/-- Every job comes to an answer, be it a failure. -/
def Ending (jobs : List α) (run : α → Except Halt β) : Prop :=
  ∀ job ∈ jobs, ∀ fault, run job ≠ .error (.fault fault)

theorem exists_finish {i : Nat} (reflects : Reflects jobs run pool) (ending : Ending jobs run)
    (running : pool[i]? = some .running) : ∃ move next, advance? jobs run places pool move = some next := by
  have inside : i < jobs.length :=
    reflects.length ▸ (List.getElem?_eq_some_iff.mp running).choose
  have known := List.getElem?_eq_getElem inside
  cases ended : ending? (run jobs[i]) with
  | some answer => exact ⟨.finish i, pool.set i (.ended answer), by simp [advance?, running, known, ended]⟩
  | none =>
    match ran : run jobs[i] with
    | .error (.fault fault) => exact absurd ran (ending _ (List.getElem_mem inside) fault)
    | .ok _ | .error (.failure _) => simp [ran, ending?] at ended

/-- Tasks that end do not block each other: as long as there is no answer one of them can make a move. -/
theorem Reflects.progress (reflects : Reflects jobs run pool) (ending : Ending jobs run)
    (free : 0 < places) (unanswered : pool.answer? = none) :
    ∃ move next, advance? jobs run places pool move = some next := by
  obtain ⟨i, waiting | running⟩ := open_of_answer?_none unanswered
  · by_cases room : pool.active < places
    · exact ⟨.start i, pool.set i .running, by simp [advance?, waiting, room]⟩
    · have busy : 0 < pool.active := by omega
      obtain ⟨other, running⟩ := running_of_active busy
      exact exists_finish reflects ending running
  · exact exists_finish reflects ending running

/-- When all tasks have ended, their answers are those of the jobs. -/
theorem Reflects.outcomes {answers : List (Except Failure β)} (reflects : Reflects jobs run pool)
    (ended : pool = answers.map .ended) :
    jobs.map run = answers.map fun answer => answer.mapError .failure := by
  subst ended
  have lengths : answers.length = jobs.length := by simpa using reflects.length
  refine List.ext_getElem (by simp [lengths]) fun i inside within => ?_
  simp only [List.length_map] at inside within
  simp only [List.getElem_map]
  exact reflects.answers (List.getElem?_eq_getElem inside) (by simp [within])

end

end Pool

section

variable {jobs : List α} {run : α → Except Halt β} {answers : List (Except Failure β)}

theorem mapM_mapError (answers : List (Except Failure β)) :
    (answers.map fun answer => answer.mapError Halt.failure).mapM id =
      (answers.mapM id).mapError .failure := by
  induction answers with
  | nil => rfl
  | cons answer rest ih =>
    simp only [List.map_cons, List.mapM_cons, ih, id]
    cases answer with
    | error failure => rfl
    | ok output => cases rest.mapM id <;> rfl

theorem sequentially_eq (jobs : List α) (run : α → Except Halt β) :
    sequentially jobs run = (jobs.map run).mapM id := by
  simp [sequentially, List.mapM_map]

/-- Jobs that all end are answered alike beside each other and one after the other. -/
theorem concurrently_eq_sequentially (ending : Pool.Ending jobs run) :
    concurrently jobs run = sequentially jobs run := by
  have faultless : (jobs.map run).findSome? fault? = none := by
    rw [List.findSome?_eq_none_iff, List.forall_mem_map]
    exact fun job listed => Option.eq_none_iff_forall_ne_some.mpr fun fault ran =>
      ending job listed fault (fault?_eq_some.mp ran)
  simp only [concurrently, faultless, sequentially_eq]

/-- One job that never ends keeps all of them from being answered. -/
theorem concurrently_of_fault (listed : job ∈ jobs) (ran : run job = .error (.fault fault)) :
    ∃ first, concurrently jobs run = .error (.fault first) := by
  cases found : (jobs.map run).findSome? fault? with
  | none =>
    have faultless := List.findSome?_eq_none_iff.mp found _ (List.mem_map_of_mem listed)
    cases faultless.symm.trans (fault?_eq_some.mpr ran)
  | some first => exact ⟨first, by simp only [concurrently, found]⟩

end

namespace Pool

variable {jobs : List α} {run : α → Except Halt β} {places : Nat} {pool : Pool β}

theorem play?_reflects (played : play? jobs run places moves = some pool) : Reflects jobs run pool ∧
    pool.remaining + moves.length = 2 * jobs.length :=
  remaining_initial (β := β) jobs ▸ (reflects_initial jobs run).foldlM played

/-- The answer of a pool is that of one job after the other. -/
theorem Reflects.answer {answer : Except Halt (List β)} (reflects : Reflects jobs run pool)
    (answered : pool.answer? = some answer) : answer = sequentially jobs run := by
  obtain ⟨answers, ended, rfl⟩ := Option.map_eq_some_iff.mp answered
  rw [sequentially_eq, reflects.outcomes (eq_map_ended ended), mapM_mapError]

/-- There is no answer while a job is left that never ends. -/
theorem Reflects.unanswered (reflects : Reflects jobs run pool) (listed : job ∈ jobs)
    (ran : run job = .error (.fault fault)) : pool.answer? = none := by
  refine Option.eq_none_iff_forall_ne_some.mpr fun answer answered => ?_
  obtain ⟨answers, ended, _⟩ := Option.map_eq_some_iff.mp answered
  have outcome := List.mem_map_of_mem (f := run) listed
  rw [reflects.outcomes (eq_map_ended ended), ran] at outcome
  obtain ⟨own, _, same⟩ := List.mem_map.mp outcome
  cases own <;> cases same

end Pool

/-- The program is lowered one method after the other. -/
def generateInOrder (program : Program) (settings : Settings) : Except Halt Assembly :=
  program.generateBy fun table => sequentially program.methods.zipIdx (lowerIndexed table settings)

theorem generateBy_congr {program : Program}
    {first second : SymbolTable → Except Halt (List Method.Output)}
    (declared : program.symbolTable = .ok table) (agree : first table = second table) :
    program.generateBy first = program.generateBy second := by
  simp only [generateBy, declared, bind, Except.bind, agree]

/-- Numbered methods that are lowered one after the other fail with the first one that does. -/
theorem first_failure {methods : List Method} {lower : Method × Nat → Except Halt β} {start : Nat}
    (failed : sequentially (methods.zipIdx start) lower = .error halt) : ∃ (i : Nat) (method : Method),
    methods[i]? = some method ∧ lower (method, start + i) = .error halt ∧ ∀ earlier, earlier < i →
    ∃ other output, methods[earlier]? = some other ∧ lower (other, start + earlier) = .ok output := by
  induction methods generalizing start with
  | nil => cases failed
  | cons method rest ih =>
    rw [sequentially, List.zipIdx_cons, List.mapM_cons] at failed
    cases ran : lower (method, start) with
    | error other =>
      rw [ran] at failed
      cases failed
      exact ⟨0, method, rfl, ran, fun _ none => by cases none⟩
    | ok output =>
      cases others : sequentially (rest.zipIdx (start + 1)) lower with
      | ok outputs =>
        rw [ran, ← sequentially, others] at failed
        cases failed
      | error other =>
        rw [ran, ← sequentially, others] at failed
        cases failed
        obtain ⟨i, found, known, fails, fine⟩ := ih others
        refine ⟨i + 1, found, known, by rwa [Nat.add_right_comm] at fails, fun earlier sooner => ?_⟩
        cases earlier with
        | zero => exact ⟨method, output, rfl, ran⟩
        | succ earlier =>
          have later := fine earlier (Nat.lt_of_succ_lt_succ sooner)
          rwa [Nat.add_right_comm] at later

/-- Tasks lower the methods of a program on any number of places, in any order of starts and ends. If
every method comes to an end, so do they, after two moves for each, and there always is a next move until
then. Their answer is that of one method after the other: the same assembly, or the failure of the first
method that has one. If a method never ends, neither do they. -/
theorem generation_schedule_independent (program : Program) (settings : Settings) (places : Nat) :
    (∀ halt, program.symbolTable = .error halt →
      program.generate settings = .error halt ∧ program.generateInOrder settings = .error halt) ∧
    ∀ table, program.symbolTable = .ok table →
      let jobs := program.methods.zipIdx
      let run := lowerIndexed table settings
      (Pool.Ending jobs run →
        program.generate settings = program.generateInOrder settings ∧
        ∀ moves pool, Pool.play? jobs run places moves = some pool →
          (pool.answer? = none → moves.length < 2 * program.methods.length ∧
            (0 < places → ∃ move next, Pool.advance? jobs run places pool move = some next)) ∧
          ∀ answer, pool.answer? = some answer →
            moves.length = 2 * program.methods.length ∧
            program.generateBy (fun _ => answer) = program.generateInOrder settings ∧
            ∀ halt, answer = .error halt → ∃ index method, program.methods[index]? = some method ∧
              Method.generate table settings method index = .error halt ∧
              ∀ earlier, earlier < index → ∃ other output, program.methods[earlier]? = some other ∧
                Method.generate table settings other earlier = .ok output) ∧
      (¬ Pool.Ending jobs run →
        (∀ moves pool, Pool.play? jobs run places moves = some pool → pool.answer? = none) ∧
        (settings.hasFeature .parallel = true → 1 < settings.jobs →
          ∃ fault, program.generate settings = program.generateBy fun _ => .error (.fault fault))) := by
  refine ⟨fun halt undeclared => ?_, fun table declared => ⟨fun ending => ⟨?_, ?_⟩, fun endless => ?_⟩⟩
  · constructor <;>
      simp only [generate, generateInOrder, generateBy, undeclared, bind, Except.bind]
  · refine generateBy_congr declared ?_
    simp only [lowerMethods]
    split
    · exact concurrently_eq_sequentially ending
    · rfl
  · intro moves pool played
    obtain ⟨reflects, moved⟩ := Pool.play?_reflects played
    rw [List.length_zipIdx] at moved
    refine ⟨fun unanswered => ⟨?_, fun free => reflects.progress ending free unanswered⟩,
      fun answer answered => ?_⟩
    · have left := Pool.remaining_of_answer?_none unanswered
      omega
    · obtain rfl := reflects.answer answered
      rw [Pool.remaining_of_answer? answered] at moved
      refine ⟨by omega, generateBy_congr declared rfl, fun halt failed => ?_⟩
      simpa [lowerIndexed] using first_failure failed
  · obtain ⟨job, listed, fault, ran⟩ : ∃ job ∈ program.methods.zipIdx, ∃ fault,
        lowerIndexed table settings job = .error (.fault fault) := by
      simpa [Pool.Ending] using endless
    refine ⟨fun moves pool played => (Pool.play?_reflects played).1.unanswered listed ran,
      fun parallel several => ?_⟩
    obtain ⟨first, unanswered⟩ := concurrently_of_fault listed ran
    refine ⟨first, generateBy_congr declared ?_⟩
    rw [lowerMethods, if_pos (by simp [parallel, several])]
    exact unanswered

/-- Two methods of three read a variable that is not there. -/
def flawedProgram : Program where
  file := "a.x"
  structs := []
  externals := []
  methods :=
    let flawed (name : String) : Method :=
      ⟨{}, name, [], .prim .i64, some [.returning {} (some (.ident {} name (.prim .i64)))], false⟩
    [⟨{}, "main", [], .void, some [], false⟩, flawed "f", flawed "g"]

def flawedTable : SymbolTable := ⟨flawedProgram.methods.map Method.signature⟩

/-- On two places, the last method ends before the first one does. -/
def flawedSchedule : List Move :=
  [.start 1, .start 0, .finish 1, .start 2, .finish 2, .finish 0]

/-- The pool of the program after some of the moves. -/
def flawedPool? (moves : List Move) : Option (Pool Method.Output) :=
  Pool.play? flawedProgram.methods.zipIdx (lowerIndexed flawedTable {}) 2 moves

theorem generation_schedule_independent_flawed :
    flawedProgram.symbolTable = .ok flawedTable ∧
    Pool.Ending flawedProgram.methods.zipIdx (lowerIndexed flawedTable {}) ∧
    (∃ pool halt, flawedPool? flawedSchedule = some pool ∧ pool.answer? = some (.error halt) ∧
      flawedProgram.generate {} = flawedProgram.generateInOrder {} ∧
      ∃ index method, flawedProgram.methods[index]? = some method ∧
        Method.generate flawedTable {} method index = .error halt ∧
        ∀ earlier, earlier < index → ∃ other output, flawedProgram.methods[earlier]? = some other ∧
          Method.generate flawedTable {} other earlier = .ok output) ∧
    ∃ pool, flawedPool? (flawedSchedule.take 3) = some pool ∧ pool.answer? = none ∧
      ∃ move next, Pool.advance? flawedProgram.methods.zipIdx (lowerIndexed flawedTable {}) 2 pool
        move = some next := by
  have declared : flawedProgram.symbolTable = .ok flawedTable := rfl
  have faultless : ∀ job ∈ flawedProgram.methods.zipIdx,
      fault? (lowerIndexed flawedTable {} job) = none := by decide +kernel
  have ending : Pool.Ending flawedProgram.methods.zipIdx (lowerIndexed flawedTable {}) :=
    fun job listed fault ran => nomatch (faultless job listed).symm.trans (fault?_eq_some.mpr ran)
  obtain ⟨same, independent⟩ :=
    ((generation_schedule_independent flawedProgram {} 2).2 flawedTable declared).1 ending
  have ends : ((flawedPool? flawedSchedule).bind Pool.answer?).any
      (fun answer => answer.toOption.isNone) = true := by decide +kernel
  have stays : (flawedPool? (flawedSchedule.take 3)).any
      (fun pool => pool.answer?.isNone) = true := by decide +kernel
  refine ⟨declared, ending, ?_, ?_⟩
  · obtain ⟨answer, answered, failed⟩ := (Option.any_eq_true _ _).mp ends
    obtain ⟨pool, played, answered⟩ := Option.bind_eq_some_iff.mp answered
    obtain ⟨_, _, first⟩ := (independent _ pool played).2 answer answered
    cases answer with
    | ok => cases failed
    | error halt => exact ⟨pool, halt, played, answered, same, first halt rfl⟩
  · obtain ⟨pool, played, unanswered⟩ := (Option.any_eq_true _ _).mp stays
    rw [Option.isNone_iff_eq_none] at unanswered
    exact ⟨pool, played, unanswered, ((independent _ pool played).1 unanswered).2 (by decide)⟩

/-- The first method reads a variable that is not there, and no frame is large enough for the second. -/
def unboundedProgram : Program where
  file := "a.x"
  structs := []
  externals := []
  methods :=
    [⟨{}, "main", [], .prim .i64, some [.returning {} (some (.ident {} "x" (.prim .i64)))], false⟩,
      ⟨{}, "g", [], .void, some [.declaration {} "a" (.array 4611686018427387873 (.prim .u8)) none], false⟩]

def unboundedTable : SymbolTable := ⟨unboundedProgram.methods.map Method.signature⟩

/-- One method after the other stops at the failure of the first. Two places lead to no answer, whatever
the order. -/
theorem failure_unreported_beside_endless :
    (∃ failure, unboundedProgram.generate { jobs := 1 } = .error (.failure failure)) ∧
    (∃ fault, unboundedProgram.generate { jobs := 2 } = .error (.fault fault)) ∧
    ∀ moves pool, Pool.play? unboundedProgram.methods.zipIdx (lowerIndexed unboundedTable { jobs := 2 }) 2
      moves = some pool → pool.answer? = none := by
  have fails : (unboundedProgram.generate { jobs := 1 }).isOk = false ∧
      fault? (unboundedProgram.generate { jobs := 1 }) = none := by decide +kernel
  have hangs : (fault? (unboundedProgram.generate { jobs := 2 })).isSome = true := by decide +kernel
  have endless : ∃ job ∈ unboundedProgram.methods.zipIdx,
      (fault? (lowerIndexed unboundedTable { jobs := 2 } job)).isSome = true := by decide +kernel
  refine ⟨?_, ?_, fun moves pool played => ?_⟩
  · cases ran : unboundedProgram.generate { jobs := 1 } with
    | ok assembly =>
      rw [ran] at fails
      cases fails.1
    | error halt =>
      cases halt with
      | failure failure => exact ⟨failure, rfl⟩
      | fault fault =>
        rw [ran] at fails
        cases fails.2
  · obtain ⟨fault, found⟩ := Option.isSome_iff_exists.mp hangs
    exact ⟨fault, fault?_eq_some.mp found⟩
  · obtain ⟨job, listed, ran⟩ := endless
    obtain ⟨fault, found⟩ := Option.isSome_iff_exists.mp ran
    exact (Pool.play?_reflects played).1.unanswered listed (fault?_eq_some.mp found)

end Nasm64.Program
