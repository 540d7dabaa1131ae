import Nasm64.Proofs.Flow.Method
import Nasm64.Proofs.Layout.Saved

/-! Methods leave the registers that their caller relies on as they were. The entry code stores them,
and every way out of a method leads through the exit code, which loads them again. -/
namespace Nasm64

open Lower

/-- Lines that the line below them may follow. -/
def Line.goesOn : Line → Bool
  | unary .jmp _ | plain .ret => false
  | _ => true

/-- The ways through some code: the lines that have run, and the code from the next line on. A jump
may lead to any place that has its label. -/
inductive Code.Path (code : Code) : Code → Code → Prop where
  | start : Path code [] code
  | next {past rest : Code} {line : Line} : Path code past (line :: rest) → line.goesOn = true →
      Path code (past ++ [line]) rest
  | jump {past rest there : Code} {line : Line} {name : String} : Path code past (line :: rest) →
      line.target? = some name → .label name :: there <:+ code →
      Path code (past ++ [line]) (.label name :: there)

namespace Lower

/-- What the code of a body asks of its method: the families that it changes are noted after it, and
it stays in the method. -/
structure Records (env : Env) (before : List Family) (code : Code) (after : List Family) : Prop where
  notes : Notes before after
  excused : ∀ line ∈ code, ∀ family ∈ line.writes, Excused after [] family
  stays : ∀ line ∈ code, env.Stays line

def entryCode (label : String) (size : Int64) (saved : List SavedSlot) : Code :=
  .label label :: ([.unary .push (.reg .framePointer),
    .mov (.reg .framePointer) (.reg .stackPointer),
    .binary .sub (.reg .stackPointer) (.imm size)] ++ saved.map SavedSlot.save)

def exitCode (exit : String) (saved : List SavedSlot) : Code :=
  .label exit :: (saved.reverse.map SavedSlot.restore ++ [.plain .leave]) ++ [.plain .ret]

theorem surround_eq (label exit : String) (size : Int64) (saved : List SavedSlot) (body : Code) :
    surround label exit size saved body =
      entryCode label size saved ++ (body ++ exitCode exit saved) := by
  simp [surround, entryCode, exitCode]

theorem SavedSlot.save_isStraight (slot : SavedSlot) : slot.save.isStraight = true := by
  unfold save
  dsimp only
  split <;> rfl

theorem SavedSlot.restore_isStraight (slot : SavedSlot) : slot.restore.isStraight = true := by
  unfold restore
  dsimp only
  split <;> rfl

theorem entryCode_straight (mem : line ∈ entryCode label size saved) : line = .label label ∨
    line.isStraight = true := by
  simp only [entryCode, List.mem_cons, List.mem_append, List.mem_map, List.not_mem_nil, or_false]
    at mem
  rcases mem with rfl | (rfl | rfl | rfl) | ⟨slot, _, rfl⟩
  · exact .inl rfl
  · exact .inr rfl
  · exact .inr rfl
  · exact .inr rfl
  · exact .inr slot.save_isStraight

theorem exitCode_straight {saved : List SavedSlot} {line : Line}
    (mem : line ∈ saved.reverse.map SavedSlot.restore ++ [.plain .leave]) :
    line.isStraight = true := by
  simp only [List.mem_append, List.mem_map, List.mem_singleton] at mem
  rcases mem with ⟨slot, _, rfl⟩ | rfl
  · exact slot.restore_isStraight
  · rfl

end Lower

/-- Code that is entered at one end and left at the other. Only the body jumps, and it jumps into the
body or to the beginning of the exit. -/
structure Encloses (entry body exit : Code) : Prop where
  falls : ∀ line ∈ entry ++ exit, line.target? = none
  inner : ∀ line ∈ body, ∀ name, line.target? = some name →
    .label name ∉ entry ∧ .label name ∉ exit.tail

/-- How far a way through such code has come. -/
inductive Stage (entry body exit past rest : Code) : Prop where
  | entering {left : Code} : past ++ left = entry → rest = left ++ (body ++ exit) → Stage ..
  | inside {middle left : Code} : (∀ line ∈ middle, line ∈ body) → left <:+ body →
      past = entry ++ middle → rest = left ++ exit → Stage ..
  | leaving {middle done : Code} : (∀ line ∈ middle, line ∈ body) → done ++ rest = exit →
      past = entry ++ middle ++ done → Stage ..

namespace Stage

variable {entry body exit past rest mid : Code} {line : Line}

inductive Comes (entry body exit past : Code) (line : Line) (rest : Code) : Prop where
  | entry : line ∈ entry → Comes ..
  | body {middle : Code} : line ∈ body → (∀ line ∈ middle, line ∈ body) → past = entry ++ middle →
      Comes ..
  | exit {middle done : Code} : (∀ line ∈ middle, line ∈ body) → done ++ line :: rest = exit →
      past = entry ++ middle ++ done → Comes ..

theorem leave {done : Code} (within : ∀ line ∈ mid, line ∈ body)
    (split : done ++ line :: rest = exit) (came : past = entry ++ mid ++ done) :
    Comes entry body exit past line rest ∧ Stage entry body exit (past ++ [line]) rest :=
  ⟨.exit within split came, .leaving within ((List.append_assoc done [line] rest).trans split)
    (by rw [came, List.append_assoc _ done])⟩

theorem walk {left : Code} (within : ∀ line ∈ mid, line ∈ body) (left_suffix : left <:+ body)
    (came : past = entry ++ mid) (goes : line :: rest = left ++ exit) :
    Comes entry body exit past line rest ∧ Stage entry body exit (past ++ [line]) rest := by
  cases left with
  | nil => exact leave within goes (came.trans (List.append_nil _).symm)
  | cons first others =>
    obtain ⟨rfl, rfl⟩ := List.cons_eq_cons.mp goes
    have own : line ∈ body := left_suffix.subset List.mem_cons_self
    refine ⟨.body own within came, ?_⟩
    refine .inside (List.forall_mem_append.mpr ⟨within, ?_⟩) ((List.suffix_cons _ _).trans left_suffix)
      (by rw [came, List.append_assoc]) rfl
    simpa using own

theorem advance (stage : Stage entry body exit past (line :: rest)) :
    Comes entry body exit past line rest ∧ Stage entry body exit (past ++ [line]) rest := by
  cases stage with
  | @entering left came goes =>
    cases left with
    | nil => exact walk (List.forall_mem_nil _) List.suffix_rfl (by simpa using came) goes
    | cons first others =>
      obtain ⟨rfl, rfl⟩ := List.cons_eq_cons.mp goes
      exact ⟨.entry (came ▸ by simp), .entering (by simpa using came) rfl⟩
  | inside within left_suffix came goes => exact walk within left_suffix came goes
  | leaving within split came => exact leave within split came

theorem land {name : String} {there : Code} (within : ∀ line ∈ mid, line ∈ body)
    (outside : .label name ∉ entry ∧ .label name ∉ exit.tail)
    (lands : .label name :: there <:+ entry ++ (body ++ exit)) (came : past = entry ++ mid) :
    Stage entry body exit past (.label name :: there) := by
  obtain ⟨before, lands⟩ := lands
  rcases List.append_eq_append_iff.mp lands with ⟨gone, rfl, goes⟩ | ⟨gone, -, within_rest⟩
  · cases gone with
    | nil => exact .inside within List.suffix_rfl (by simpa using came) goes
    | cons first others =>
      obtain ⟨rfl, _⟩ := List.cons_eq_cons.mp goes
      exact absurd (by simp) outside.1
  · rcases List.append_eq_append_iff.mp within_rest with ⟨left, -, goes⟩ | ⟨left, rfl, goes⟩
    · cases left with
      | nil => exact .inside within List.nil_suffix came goes.symm
      | cons first others =>
        refine absurd ?_ outside.2
        rw [goes]
        simp
    · exact .inside within ⟨gone, rfl⟩ came goes

end Stage

variable {entry body exit past rest : Code}

theorem Code.Path.stage (encloses : Encloses entry body exit)
    (path : Code.Path (entry ++ (body ++ exit)) past rest) : Stage entry body exit past rest := by
  induction path with
  | start => exact .entering rfl rfl
  | next _ _ ih => exact ih.advance.2
  | @jump _ _ _ line name _ dst lands ih =>
    have still : ∀ line ∈ entry ++ exit, line.target? ≠ some name := fun line mem same =>
      nomatch (encloses.falls line mem).symm.trans same
    cases ih.advance.1 with
    | entry mem => exact absurd dst (still line (List.mem_append_left _ mem))
    | @body mid mem within came =>
      refine Stage.land (List.forall_mem_append.mpr ⟨within, ?_⟩) (encloses.inner line mem name dst)
        lands (by rw [came, List.append_assoc])
      simpa using mem
    | exit _ split _ =>
      refine absurd dst (still line (List.mem_append_right _ ?_))
      rw [← split]
      simp

/-- A way to the return at the end has taken all of the entry and all of the exit, and lines of the
body between them. -/
theorem Code.Path.returns {last : Code} (encloses : Encloses entry body (last ++ [.plain .ret]))
    (entered : .plain .ret ∉ entry) (stays : .plain .ret ∉ body) (leaves : .plain .ret ∉ last)
    (path : Code.Path (entry ++ (body ++ (last ++ [.plain .ret]))) past (.plain .ret :: rest)) :
    ∃ mid, (∀ line ∈ mid, line ∈ body) ∧
      past ++ [.plain .ret] = entry ++ mid ++ (last ++ [.plain .ret]) := by
  cases (path.stage encloses).advance.1 with
  | entry mem => exact absurd mem entered
  | body mem _ _ => exact absurd mem stays
  | @exit mid done within split came =>
    refine ⟨mid, within, ?_⟩
    have final : rest = [] := by
      rcases List.eq_nil_or_concat rest with none | ⟨others, final, rfl⟩
      · exact none
      · have whole : (done ++ .plain .ret :: others) ++ [final] = last ++ [.plain .ret] := by
          simpa using split
        exact absurd (List.append_inj_left' whole rfl ▸ by simp) leaves
    subst final
    rw [came, List.append_assoc, ← split]

/-- How the code of a method preserves registers. It takes slots for these families, each with one of
its own, stores them before its body and loads them again on every way to its return. -/
structure Preserves (label exit : String) (size : Int64) (families : List Family)
    (saved : List SavedSlot) (body code : Code) : Prop where
  layers : code = entryCode label size saved ++ (body ++ exitCode exit saved)
  complete : ∀ line ∈ body, ∀ family ∈ line.writes, family.isCalleeSaved = true → family ∈ families
  distinct : families.Nodup
  slots : saved.map SavedSlot.register = families.map (⟨·, 8⟩)
  apart : (saved.map SavedSlot.frameSlot).Pairwise FrameSlot.Apart
  ways : ∀ past rest, Code.Path code past (.plain .ret :: rest) →
    ∃ middle, (∀ line ∈ middle, line ∈ body) ∧
      past ++ [.plain .ret] = entryCode label size saved ++ middle ++ exitCode exit saved

theorem target?_around {label exit : String} {size : Int64} {saved : List SavedSlot} {line : Line}
    (mem : line ∈ entryCode label size saved ++ exitCode exit saved) : line.target? = none := by
  rcases List.mem_append.mp mem with mem | mem
  · rcases entryCode_straight mem with rfl | straight
    · rfl
    · exact Line.target?_of_plain (.inl straight)
  · rw [exitCode, List.mem_append, List.mem_cons, List.mem_singleton] at mem
    rcases mem with (rfl | mem) | rfl
    · rfl
    · exact Line.target?_of_plain (.inl (exitCode_straight mem))
    · rfl

theorem encloses_of_aside {label exit : String} {size : Int64} {saved : List SavedSlot}
    (aside : ∀ line ∈ body, line.target? ≠ some label) :
    Encloses (entryCode label size saved) body (exitCode exit saved) where
  falls _ member := target?_around member
  inner line member name target := by
    constructor
    · intro listed
      rcases entryCode_straight listed with same | straight
      · obtain rfl := Line.label.inj same
        exact aside line member target
      · cases straight
    · intro listed
      rw [exitCode, List.cons_append, List.tail_cons, List.mem_append, List.mem_singleton] at listed
      rcases listed with listed | same
      · cases exitCode_straight listed
      · cases same

namespace Method

variable {method : Method} {env : Env} {after : Frame}

theorem lowerBody_traces (lowered : Yields method.lowerBody env {} body after) :
    ∃ params frame skeleton, Yields (lowerParameters method.name 0 method.parameters) env {} params
        frame ∧ Yields (Stmt.skeletons true (method.body.getD [])) env frame skeleton after ∧
      body = params ++ skeleton.code ∧ frame.Traces env (method.burden env)
        (Stmt.labelCounts (method.body.getD [])) skeleton after := by
  rw [Yields, lowerBody_eq_unchecked] at lowered
  exact lowerBodyUnchecked_traces (by simp [Frame.Ordinary]) lowered

theorem lowerBody_records (lowered : Yields method.lowerBody env {} body after) :
    Records env [] body after.touched := by
  obtain ⟨params, frame, skeleton, entered, _, rfl, traces⟩ := lowerBody_traces lowered
  have acts : Frame.Acts {} env 0 params frame := lowerParameters_acts entered
  have free : frame.top = [] := by simp [Frame.top, acts.steady.held, families]
  obtain ⟨_, entry⟩ := acts.accounts
  have items := traces.items
  rw [free] at items
  refine ⟨entry.notes.trans traces.notes, List.forall_mem_append.mpr ⟨?_, ?_⟩,
    List.forall_mem_append.mpr ⟨?_, ?_⟩⟩
  · exact fun line mem fam written => (entry.excused line mem fam written).later traces.notes
  · intro line mem
    obtain ⟨item, listed, inside⟩ := List.mem_flatMap.mp mem
    exact (items item listed).excused line inside
  · exact fun line mem => Env.stays_of_isStraight (entry.straight line mem)
  · intro line mem
    obtain ⟨item, listed, inside⟩ := List.mem_flatMap.mp mem
    exact (items item listed).stays line inside

/-- It does not start again. A method that is defined elsewhere may have any label, but no body. -/
theorem lowerBody_aside (own : env.signature = method.signature)
    (lowered : Yields method.lowerBody env {} body after) :
    ∀ line ∈ body, line.target? ≠ some env.signature.label := by
  intro line mem dst
  cases defined : method.body with
  | some stmts =>
    have internal : env.signature.isExternal = false := by simp [own, signature, isExternal, defined]
    exact Signature.label_not_isInner internal
      (((lowerBody_records lowered).stays line mem).2 _ dst)
  | none =>
    obtain ⟨params, frame, skeleton, entered, run, rfl, _⟩ := lowerBody_traces lowered
    rw [defined, Option.getD_none, Stmt.skeletons] at run
    obtain ⟨rfl, rfl⟩ := yields_pure.mp run
    have performs : Frame.Performs {} env 0 params frame := (lowerParameters_acts entered).toPerforms
    rw [Skeleton.code_nil, List.append_nil] at mem
    rw [Line.target?_of_plain (.inr (performs.unmarked line mem))] at dst
    cases dst

theorem Built.preserves (own : env.signature = method.signature)
    (built : method.Built env code next slots saved size body after) :
    Preserves env.signature.label env.resultLabel size next.savedFamilies saved body code := by
  have records := lowerBody_records built.lowered
  have encloses : Encloses (entryCode env.signature.label size saved) body
      (exitCode env.resultLabel saved) := encloses_of_aside (lowerBody_aside own built.lowered)
  have same : next.savedFamilies = after.savedFamilies := by
    rw [Frame.savedFamilies, Frame.savedFamilies, built.noted]
  have distinct : after.savedFamilies.Nodup :=
    (List.mergeSort_perm _ _).nodup_iff.mpr (records.notes.distinct List.nodup_nil)
  refine ⟨by rw [built.surrounds, surround_eq], ?_, same ▸ distinct, built.listed, ?_, ?_⟩
  · intro line mem fam written relied
    have noted := (records.excused line mem fam written) relied
    rw [same, Frame.savedFamilies, List.mem_mergeSort]
    simpa using noted
  · obtain ⟨last, reserved⟩ := built.reserved
    refine (preserveAll_apart (Family.length_le_of_calleeSaved distinct fun fam mem => ?_)
      reserved).2
    exact records.notes.needed (by simp) fam (List.mem_mergeSort.mp mem)
  · intro past rest path
    rw [built.surrounds, surround_eq] at path
    refine path.returns encloses ?_ (fun mem => (records.stays _ mem).1 rfl) ?_
    · intro mem
      rcases entryCode_straight mem with same | straight
      · cases same
      · cases straight
    · intro mem
      rcases List.mem_cons.mp mem with same | mem
      · cases same
      · cases exitCode_straight mem

theorem yields_of_generate (generated : method.generate table cfg idx = .ok output) : ∃ frame,
    Yields method.lower ⟨idx, method.signature, table, some cfg⟩ {} output.code frame := by
  unfold generate at generated
  cases ran : method.lower.run ⟨idx, method.signature, table, some cfg⟩ {} with
  | error halt => simp [StateT.run, ran, bind, Except.bind] at generated
  | ok res =>
    simp only [StateT.run, ran, bind, Except.bind, pure, Except.pure, Except.ok.injEq] at generated
    exact ⟨res.2, by rw [← generated]; exact ran⟩

end Method

/-- Every method that is generated preserves the registers that its caller relies on. Inside the
bounds of exact arithmetic, their slots also keep apart from all the other ones of the frame. -/
theorem callee_saved_preserved {table : SymbolTable} {settings : Settings} {method : Method}
    {index : Nat} {output : Method.Output}
    (generated : method.generate table settings index = .ok output) :
    let env : Env := ⟨index, method.signature, table, some settings⟩
    ∃ frame size saved body after,
      Yields method.lower env {} output.code frame ∧ Yields method.lowerBody env {} body after ∧
      Preserves env.signature.label env.resultLabel size frame.savedFamilies saved body output.code ∧
      (0 < env.stackAlignment → 0 ≤ env.shadowSpace →
        method.extent frame + env.shadowSpace.toInt < 2 ^ 62 →
        Word.leastPower (method.extent frame + env.shadowSpace.toInt) + env.stackAlignment.toInt ≤
          2 ^ 63 →
        ∃ slots, HandsOut env method.lower {} (slots ++ saved.map SavedSlot.frameSlot) output.code
            frame ∧
          WellLaid env.stackAlignment.toInt env.shadowSpace.toInt size.toInt
            (slots ++ saved.map SavedSlot.frameSlot)) := by
  intro env
  obtain ⟨frame, run⟩ := Method.yields_of_generate generated
  obtain ⟨slots, saved, size, body, after, built⟩ := Method.lower_built run
  refine ⟨frame, size, saved, body, after, run, built.lowered, built.preserves rfl,
    fun positive shadowed small fits => ⟨slots, built.hands, ?_⟩⟩
  exact built.wellLaid (Int64.lt_iff_toInt_lt.mp positive) (Int64.le_iff_toInt_le.mp shadowed) small
    fits

def Method.lowerBodyNoting (method : Method) : Lower (Code × List Family) := do
  let code ← method.lowerBody
  return (code, (← get).touched)

/-- The families to preserve, when they were noted in the order of the register file. -/
theorem Method.savedFamilies_eq {method : Method} {next : Frame} {families : List Family}
    (run : Yields method.lower env {} code next)
    (noting : ∃ noted last, Yields method.lowerBodyNoting env {} noted last ∧
      (noted.2 == families) = true)
    (sorted : families.Pairwise fun left right => decide (left.code ≤ right.code)) :
    next.savedFamilies = families := by
  obtain ⟨_, _, _, _, _, built⟩ := Method.lower_built run
  obtain ⟨_, _, noting, checked⟩ := noting
  simp only [Method.lowerBodyNoting, yields_bind, yields_get, yields_pure] at noting
  obtain ⟨_, _, again, _, _, ⟨rfl, rfl⟩, rfl, rfl⟩ := noting
  obtain ⟨_, same⟩ := built.lowered.unique again
  rw [Frame.savedFamilies, built.noted, same, show Frame.touched _ = _ from eq_of_beq checked]
  exact List.mergeSort_of_pairwise sorted

/-- A method that returns early, negates a float and adds more numbers than fit in registers that are
free to use. -/
def branchingMethod : Method :=
  let x : Expr := .ident {} "x" (.prim .f64)
  let y : Expr := .ident {} "y" (.prim .i64)
  let sum (left right : Expr) : Expr := .binary {} .add left right (.prim .i64)
  { position := {}
    name := "main"
    parameters := [⟨"x", .prim .f64⟩, ⟨"y", .prim .i64⟩]
    result := .prim .f64
    body := some [.conditional {} (.bool {} true) [.returning {} (some (.unary {} .negate x))] none,
      .expression {} (sum (sum y y) (sum y y)), .returning {} (some x)]
    isVariadic := false }

theorem callee_saved_preserved_when_branching :
    let env : Env := ⟨0, branchingMethod.signature, ⟨[]⟩, some {}⟩
    ∃ output, branchingMethod.generate ⟨[]⟩ {} 0 = .ok output ∧
      ∃ frame size saved body slots, frame.savedFamilies = [.rdi, .xmm 7] ∧
        Preserves "main" ".L0_ret" size frame.savedFamilies saved body output.code ∧
        HandsOut env branchingMethod.lower {} (slots ++ saved.map SavedSlot.frameSlot) output.code
          frame ∧
        WellLaid 16 32 size.toInt (slots ++ saved.map SavedSlot.frameSlot) := by
  intro env
  obtain ⟨_, _, fits, rfl⟩ := Yields.of_check branchingMethod.frameFits env {} id (by decide +kernel)
  obtain ⟨code, next, run⟩ := Method.lower_of_frameFits rfl fits
  have generated := Method.generate_of_yields run
  obtain ⟨frame, size, saved, body, after, same, lowered, preserves, laid⟩ :=
    callee_saved_preserved generated
  obtain ⟨_, rfl⟩ := run.unique same
  have families : next.savedFamilies = [.rdi, .xmm 7] :=
    Method.savedFamilies_eq run (Yields.of_check branchingMethod.lowerBodyNoting env {}
      (fun noted => noted.2 == [.rdi, .xmm 7]) (by decide +kernel)) (by decide)
  have extent : branchingMethod.extent next = 48 := by
    rw [Method.extent, families]
    decide +kernel
  obtain ⟨slots, hands, well⟩ := laid (by decide) (by decide) (by rw [extent]; decide)
    (by rw [extent]; decide +kernel)
  exact ⟨_, generated, next, size, saved, body, slots, families, preserves, hands, well⟩

/-- The sizes of the variables add up to `2 ^ 64`, so that the next slot is that of the first one. -/
def wrappingMethod : Method :=
  let x : Expr := .ident {} "x" (.prim .i64)
  let sum (left right : Expr) : Expr := .binary {} .add left right (.prim .i64)
  { position := {}
    name := "main"
    parameters := []
    result := .prim .i64
    body := some [.declaration {} "x" (.prim .i64) (some (.number {} 1 (.prim .i64))),
      .declaration {} "a" (.array 9223372036854775807 (.prim .u8)) none,
      .declaration {} "b" (.array 9223372036854775801 (.prim .u8)) none,
      .returning {} (some (sum (sum x x) (sum x x)))]
    isVariadic := false }

/-- Between the code that saves a register and the code that restores it, a variable is stored in the same
slot. -/
theorem saved_register_overwritten :
    let slot : SavedSlot := ⟨⟨.rdi, 8⟩, 8⟩
    ∃ output, wrappingMethod.generate ⟨[]⟩ {} 0 = .ok output ∧
      [slot.save, .mov (.mem 8 (.frameSlot 8)) (.imm 1), slot.restore].Sublist output.code := by
  intro slot
  obtain ⟨output, generated, stored⟩ := Attempt.exists_ok (wrappingMethod.generate ⟨[]⟩ {} 0)
    (fun output => decide
      ([slot.save, .mov (.mem 8 (.frameSlot 8)) (.imm 1), slot.restore].Sublist output.code))
    (by decide +kernel)
  exact ⟨output, generated, of_decide_eq_true stored⟩

end Nasm64
