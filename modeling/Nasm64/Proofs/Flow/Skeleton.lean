import Nasm64.Proofs.Stack.Block

/-! The code of statements as a skeleton of labels, jumps and comments, in which the code of each simple
statement and of each condition is one step. -/
namespace Nasm64

open Lower

/-- What a method body does in one step: a simple statement, or the evaluation of a condition. -/
inductive Event where
  | statement (stmt : Stmt)
  | condition (expr : Expr)
deriving Repr

inductive Item where
  | step (event : Event) (code : Code)
  | line (content : Line)
deriving Repr

def Line.label? : Line → Option String
  | label name => some name
  | _ => none

namespace Item

def code : Item → Code
  | step _ code => code
  | line content => [content]

def label? : Item → Option String
  | step .. => none
  | line content => content.label?

def target? : Item → Option String
  | step .. => none
  | line content => content.target?

end Item

abbrev Skeleton := List Item

namespace Skeleton

def code (skeleton : Skeleton) : Code := skeleton.flatMap Item.code

def labels (skeleton : Skeleton) : List String := skeleton.filterMap Item.label?

def targets (skeleton : Skeleton) : List String := skeleton.filterMap Item.target?

variable {first second : Skeleton} {item : Item}

@[simp] theorem code_nil : code [] = [] := rfl

@[simp] theorem code_cons : code (item :: first) = item.code ++ first.code := rfl

@[simp] theorem code_append : code (first ++ second) = first.code ++ second.code :=
  List.flatMap_append

@[simp, grind =] theorem labels_append : labels (first ++ second) = first.labels ++ second.labels :=
  List.filterMap_append

@[simp, grind =] theorem targets_append : targets (first ++ second) = first.targets ++ second.targets :=
  List.filterMap_append

section

variable {event : Event} {code : Code} {name : String}

@[simp, grind =] theorem labels_nil : labels [] = [] := rfl

@[simp, grind =] theorem labels_step : labels (.step event code :: first) = first.labels := rfl

@[simp, grind =] theorem labels_label : labels (.line (.label name) :: first) = name :: first.labels
  := rfl

@[simp, grind =] theorem labels_jump : labels (.line (.jump name) :: first) = first.labels := rfl

@[simp, grind =] theorem labels_jumpIfZero : labels (.line (.jumpIfZero name) :: first) =
  first.labels := rfl

@[simp, grind =] theorem targets_nil : targets [] = [] := rfl

@[simp, grind =] theorem targets_step : targets (.step event code :: first) = first.targets := rfl

@[simp, grind =] theorem targets_label : targets (.line (.label name) :: first) = first.targets := rfl

@[simp, grind =] theorem targets_jump : targets (.line (.jump name) :: first) = name :: first.targets := rfl

@[simp, grind =] theorem targets_jumpIfZero :
    targets (.line (.jumpIfZero name) :: first) = name :: first.targets := rfl

end

@[simp] theorem code_lines (lines : Code) : code (lines.map .line) = lines := by
  induction lines with
  | nil => rfl
  | cons line rest ih =>
    rw [List.map_cons, code_cons, ih]
    rfl

end Skeleton

namespace Lower

def asStep (event : Event) (body : Lower Code) : Lower Skeleton := do
  return [.step event (← body)]

end Lower

namespace Stmt

mutual

def skeleton (last : Bool) : Stmt → Lower Skeleton
  | declaration position name ty init =>
    asStep (.statement (declaration position name ty init)) (lowerDeclaration position name ty init)
  | assignment position target value =>
    asStep (.statement (assignment position target value)) (lowerAssignment position target value)
  | returning position value => do
    let step ← asStep (.statement (returning position value)) (lowerReturn position value true)
    let env ← read
    return step ++ if last then [] else [.line (.jump env.resultLabel)]
  | expression position value =>
    asStep (.statement (expression position value)) (lowerExpression value)
  | conditional _ condition whenTrue none => do
    let test ← asStep (.condition condition) (lowerCondition condition)
    let done ← newLabel
    let body ← inScope (skeletons false whenTrue)
    return test ++ [.line (.jumpIfZero done)] ++ body ++ [.line (.label done)]
  | conditional _ condition whenTrue (some otherwise) => do
    let test ← asStep (.condition condition) (lowerCondition condition)
    let done ← newLabel
    let other ← newLabel
    let body ← inScope (skeletons false whenTrue)
    let rest ← inScope (skeletons false otherwise)
    return test ++ [.line (.jumpIfZero other)] ++ body ++
      [.line (.jump done), .line (.label other)] ++ rest ++ [.line (.label done)]
  | loop _ condition body => do
    let start ← newLabel
    let done ← newLabel
    let test ← asStep (.condition condition) (lowerCondition condition)
    let inner ← inScope (skeletons false body)
    return [.line (.label start)] ++ test ++ [.line (.jumpIfZero done)] ++ inner ++
      [.line (.jump start), .line (.label done)]
  | block _ body => inScope (skeletons last body)
termination_by structural stmt => stmt

def skeletons (top : Bool) : List Stmt → Lower Skeleton
  | [] => return []
  | stmt :: rest => do
    let comment ← commentFor stmt
    let items ← stmt.skeleton (top && rest.isEmpty)
    match stmt.isReturn, rest with
    | true, next :: _ =>
      warn .unreachableCode next.position "unreachable code after return"
      return comment.map .line ++ items
    | _, _ => return comment.map .line ++ items ++ (← skeletons top rest)
termination_by structural stmts => stmts

end

mutual

def labelCount : Stmt → Nat
  | conditional _ _ whenTrue none => labelCounts whenTrue + 1
  | conditional _ _ whenTrue (some otherwise) => labelCounts whenTrue + labelCounts otherwise + 2
  | loop _ _ body => labelCounts body + 2
  | block _ body => labelCounts body
  | _ => 0

/-- How many are made for a list of statements. Nothing is generated after a return. -/
def labelCounts : List Stmt → Nat
  | [] => 0
  | stmt :: rest => stmt.labelCount + if stmt.isReturn then 0 else labelCounts rest

end

end Stmt

namespace Lower

variable {α β : Type}

theorem yields_asStep {env : Env} {frame next : Frame} : Yields (asStep event body) env frame items next ↔
    ∃ code, Yields body env frame code next ∧ items = [.step event code] := by
  simp [asStep, eq_comm]

theorem map_inScope (f : α → β) (body : Lower α) : f <$> inScope body = inScope (f <$> body) := by
  simp only [inScope, map_bind, map_pure, bind_map_left]

end Lower

mutual

theorem Stmt.lower_eq_skeleton : (last : Bool) → (stmt : Stmt) →
    stmt.lower last = Skeleton.code <$> stmt.skeleton last
  | last, .declaration pos name ty init => by
    simp [Stmt.lower, Stmt.skeleton, asStep, Item.code]
  | last, .assignment pos dst v => by
    simp [Stmt.lower, Stmt.skeleton, asStep, Item.code]
  | last, .returning pos v => by
    rw [Stmt.lower, Stmt.skeleton, lowerReturn_eq]
    cases last <;> simp [asStep, Item.code]
  | last, .expression pos v => by
    simp [Stmt.lower, Stmt.skeleton, asStep, Item.code]
  | last, .conditional pos cond whenTrue none => by
    simp [Stmt.lower, Stmt.skeleton, asStep, Item.code, Stmt.lowerBlock_eq_skeletons false whenTrue,
      ← map_inScope]
  | last, .conditional pos cond whenTrue (some otherwise) => by
    simp [Stmt.lower, Stmt.skeleton, asStep, Item.code, Stmt.lowerBlock_eq_skeletons false whenTrue,
      Stmt.lowerBlock_eq_skeletons false otherwise, ← map_inScope]
  | last, .loop pos cond body => by
    simp [Stmt.lower, Stmt.skeleton, asStep, Item.code, Stmt.lowerBlock_eq_skeletons false body,
      ← map_inScope]
  | last, .block pos body => by
    rw [Stmt.lower, Stmt.skeleton, Stmt.lowerBlock_eq_skeletons last body, map_inScope]

theorem Stmt.lowerBlock_eq_skeletons : (top : Bool) → (stmts : List Stmt) →
    Stmt.lowerBlock top stmts = Skeleton.code <$> Stmt.skeletons top stmts
  | top, [] => by
    simp [Stmt.lowerBlock, Stmt.skeletons]
  | top, stmt :: rest => by
    simp only [Stmt.lowerBlock, Stmt.skeletons, map_bind, Stmt.lower_eq_skeleton _ stmt,
      bind_map_left]
    refine bind_congr fun comment => bind_congr fun items => ?_
    have continued : (do return comment ++ items.code ++ (← Stmt.lowerBlock top rest)) =
        Skeleton.code <$> (do
          return comment.map .line ++ items ++ (← Stmt.skeletons top rest) : Lower Skeleton) := by
      simp [Stmt.lowerBlock_eq_skeletons top rest]
    cases rest with
    | nil => cases stmt.isReturn <;> exact continued
    | cons next more =>
      cases stmt.isReturn with
      | true => simp
      | false => exact continued

end

namespace Lower

variable {env : Env} {frame mid next : Frame}

theorem eq_of_toString_eq {first second : Nat} (same : toString first = toString second) :
    first = second := by
  have digits := congrArg (fun text => Nat.ofDigitChars 10 text.toList 0) same
  simpa [Nat.toString_eq_ofList_toDigits] using digits

theorem Env.localLabel_injective {first second : Nat}
    (same : env.localLabel first = env.localLabel second) : first = second :=
  eq_of_toString_eq ((String.append_right_inj _).mp same)

theorem Env.localLabel_ne_resultLabel (number : Nat) : env.localLabel number ≠ env.resultLabel := by
  intro same
  have spelled : (".L" ++ toString env.method) ++ ("_" ++ toString number) =
      (".L" ++ toString env.method) ++ "_ret" := by
    rw [← String.append_assoc]
    exact same
  have ends : "_" ++ toString number = "_" ++ "ret" := (String.append_right_inj _).mp spelled
  have text : String.ofList (Nat.toDigits 10 number) = "ret" := by
    rw [← Nat.toString_eq_ofList_toDigits]
    exact (String.append_right_inj _).mp ends
  have letters : Nat.toDigits 10 number = "ret".toList := by rw [← text, String.toList_ofList]
  have digit : 'r'.isDigit = true :=
    Nat.isDigit_of_mem_toDigits (by decide) (Nat.le_refl 10) (n := number) (by rw [letters]; decide)
  cases digit

end Lower

/-- No label, jump or comment is inside a step. -/
def Item.isOpaque : Item → Prop
  | .step _ code => ∀ line ∈ code, line.isMark = false
  | .line _ => True

/-- What lines name is what items do, since no step names anything. -/
theorem Skeleton.code_filterMap {skeleton : Skeleton} {read : Line → Option String}
    {named : Item → Option String} (opaque_ : ∀ item ∈ skeleton, item.isOpaque)
    (plain : ∀ {line}, line.isMark = false → read line = none)
    (steps : ∀ event code, named (.step event code) = none)
    (lines : ∀ content, named (.line content) = read content) :
    skeleton.code.filterMap read = skeleton.filterMap named := by
  induction skeleton with
  | nil => rfl
  | cons item rest ih =>
    obtain ⟨own, others⟩ := List.forall_mem_cons.mp opaque_
    rw [code_cons, List.filterMap_append, ih others, List.filterMap_cons]
    cases item with
    | step event code =>
      have silent : code.filterMap read = [] :=
        List.filterMap_eq_nil_iff.mpr fun line mem => plain (own line mem)
      simp [Item.code, silent, steps]
    | line content => cases found : read content <;> simp [Item.code, lines, found]

namespace Lower

/-- What stands in the skeleton of statements at a depth of the machine stack. The families that it
changes are excused by those noted after it and by its results, and it stays in the method. -/
structure Stands (env : Env) (depth : Int64) (weight : Nat) (results after : List Family)
    (item : Item) : Prop where
  isOpaque : item.isOpaque
  settled : Settled env depth weight item.code
  excused : ∀ line ∈ item.code, ∀ family ∈ line.writes, Excused after results family
  stays : ∀ line ∈ item.code, env.Stays line

/-- A run that gives the skeleton of statements, with what stands in it. Its labels have the next
numbers, and it jumps to them or to the end of the method. -/
structure Frame.Traces (frame : Frame) (env : Env) (weight count : Nat) (skeleton : Skeleton)
    (next : Frame) : Prop where
  steady : frame.Steady next
  counted : next.labels = frame.labels + count
  labels : skeleton.labels.Perm ((List.range' (frame.labels + 1) count).map env.localLabel)
  closed : ∀ target ∈ skeleton.targets, target ∈ skeleton.labels ∨ target = env.resultLabel
  notes : Notes frame.touched next.touched
  items : ∀ item ∈ skeleton, Stands env frame.depth weight frame.top next.touched item

variable {env : Env} {frame mid next : Frame} {first second : Skeleton} {weight count more : Nat}
  {depth : Int64} {results before after : List Family} {item : Item} {content : Line} {code : Code}

theorem Stands.later (stands : Stands env depth weight results before item)
    (notes : Notes before after) : Stands env depth weight results after item :=
  ⟨stands.isOpaque, stands.settled, fun line mem fam written =>
    (stands.excused line mem fam written).later notes, stands.stays⟩

theorem Env.Guides.stands (guides : env.Guides content) :
    Stands env depth weight results after (.line content) where
  isOpaque := trivial
  settled := .line guides.displacement guides.silent
  excused := by simp [Item.code, guides.writes]
  stays := by simpa [Item.code] using guides.stays

namespace Frame.Traces

theorem settles (traces : frame.Traces env weight count first next) :
    frame.Settles env weight first.code next := by
  refine ⟨traces.steady, ?_⟩
  have items := traces.items
  clear traces
  induction first with
  | nil => exact .nil
  | cons item rest ih =>
    obtain ⟨stands, others⟩ := List.forall_mem_cons.mp items
    exact stands.settled.append (ih others)

theorem append (before : frame.Traces env weight count first mid)
    (after : mid.Traces env weight more second next) :
    frame.Traces env weight (count + more) (first ++ second) next where
  steady := before.steady.trans after.steady
  counted := by rw [after.counted, before.counted, Nat.add_assoc]
  labels := by
    have later := after.labels
    rw [before.counted, Nat.add_right_comm] at later
    rw [Skeleton.labels_append, ← List.range'_append_1, List.map_append]
    exact before.labels.append later
  closed := by
    intro dst mem
    rw [Skeleton.labels_append, List.mem_append]
    rcases List.mem_append.mp (Skeleton.targets_append ▸ mem) with inside | inside
    · exact (before.closed dst inside).imp_left .inl
    · exact (after.closed dst inside).imp_left .inr
  notes := before.notes.trans after.notes
  items := by
    have behind := after.items
    rw [before.steady.depth, top, before.steady.held] at behind
    exact List.forall_mem_append.mpr
      ⟨fun item mem => (before.items item mem).later after.notes, behind⟩

theorem then_ (before : frame.Traces env weight 0 first mid)
    (after : mid.Traces env weight count second next) :
    frame.Traces env weight count (first ++ second) next :=
  Nat.zero_add count ▸ before.append after

theorem nil (frame : Frame) : frame.Traces env weight 0 [] frame :=
  ⟨.refl _, rfl, .refl _, by simp, .refl _, by simp⟩

theorem line (before : frame.Traces env weight count first next) (guides : env.Guides content)
    (none : content.label? = none) (leaves : ∀ dst, content.target? = some dst → dst = env.resultLabel) :
    frame.Traces env weight count (first ++ [.line content]) next := by
  suffices alone : next.Traces env weight 0 [.line content] next from before.append alone
  refine ⟨.refl _, rfl, ?_, fun dst mem => .inr ?_, .refl _, List.forall_mem_singleton.mpr guides.stands⟩
  · simp [Skeleton.labels, Item.label?, none]
  · simp only [Skeleton.targets, List.mem_filterMap, List.mem_singleton, exists_eq_left, Item.target?] at mem
    exact leaves dst mem

theorem mark (named : Yields newLabel env frame label mid)
    (traces : mid.Traces env weight count first next)
    (listed : second.labels = first.labels ++ [label] ∨ second.labels = label :: first.labels)
    (jumps : ∀ dst ∈ second.targets, dst ∈ first.targets ∨ dst ∈ second.labels)
    (items : ∀ item ∈ second, Stands env mid.depth weight mid.top next.touched item) :
    frame.Traces env weight (count + 1) second next := by
  obtain ⟨rfl, rfl⟩ := yields_newLabel.mp named
  have same : second.labels.Perm (env.localLabel (frame.labels + 1) :: first.labels) :=
    listed.elim (fun last => last ▸ List.perm_append_singleton _ _) fun front => front ▸ .refl _
  refine ⟨(newLabel_steady named).trans traces.steady, ?_, ?_, fun dst mem => ?_, traces.notes, items⟩
  · rw [traces.counted, Nat.add_right_comm, Nat.add_assoc]
  · rw [List.range'_succ, List.map_cons]
    exact same.trans (traces.labels.cons _)
  · rcases jumps dst mem with old | here
    · exact (traces.closed dst old).imp_left fun inside => same.mem_iff.mpr (List.mem_cons_of_mem _ inside)
    · exact .inl here

theorem step (event : Event)
    (accounted : frame.Performs env weight code next ∧
      ∃ calls, Accounts frame.touched frame.top calls code next.touched) :
    frame.Traces env weight 0 [.step event code] next := by
  obtain ⟨performs, _, accounts⟩ := accounted
  refine ⟨performs.steady, performs.labels, .refl _, by simp, accounts.notes,
    List.forall_mem_singleton.mpr ⟨performs.unmarked, performs.settled, accounts.excused, ?_⟩⟩
  exact fun line mem => Env.stays_of_isStraight (accounts.straight line mem)

theorem inScope (traces : frame.Traces env weight count first next) :
    frame.Traces env weight count first { next with scope := frame.scope } :=
  ⟨traces.steady.trans ⟨rfl, rfl, Nat.add_comm _ _⟩, traces.counted, traces.labels, traces.closed,
    traces.notes, traces.items⟩

end Frame.Traces

theorem commentFor_traces (run : Yields (commentFor stmt) env frame comment next) :
    frame.Traces env weight 0 (comment.map .line) next := by
  obtain ⟨rfl, rfl⟩ := yields_commentFor.mp run
  split
  · exact (Frame.Traces.nil frame).line (⟨rfl, rfl, rfl, by simp [Env.Stays, Line.target?]⟩) rfl
      (by simp [Line.target?])
  · exact .nil _

end Lower

mutual

theorem Stmt.skeleton_traces :
    (last : Bool) → (stmt : Stmt) → frame.Ordinary → stmt.burden env ≤ weight →
      Yields (stmt.skeleton last) env frame items next →
      frame.Traces env weight stmt.labelCount items next
  | last, .declaration pos name ty init, ord, fits, run => by
    obtain ⟨_, lowered, rfl⟩ := yields_asStep.mp run
    exact .step _ (lowerDeclaration_acts ord (by rintro v rfl; exact fits) lowered).accounted
  | last, .assignment pos dst v, ord, fits, run => by
    obtain ⟨_, lowered, rfl⟩ := yields_asStep.mp run
    exact .step _ (lowerAssignment_acts ord fits lowered).accounted
  | last, .returning pos v, ord, fits, run => by
    simp only [Stmt.skeleton, yields_bind, yields_asStep, yields_read, yields_pure] at run
    obtain ⟨_, _, ⟨code, lowered, rfl⟩, _, _, ⟨rfl, rfl⟩, rfl, rfl⟩ := run
    have traces : frame.Traces env weight 0 [.step (.statement (.returning pos v)) code] _ :=
      .step _ (lowerReturn_acts ord fits lowered).accounted
    cases last with
    | true => simpa [Stmt.labelCount] using traces
    | false => exact traces.line ⟨rfl, rfl, rfl, by simp [Line.jump, Env.Stays, Line.target?,
      Operand.text, Env.IsInner]⟩ rfl (by simp [Line.jump, Line.target?, Operand.text])
  | last, .expression pos v, ord, fits, run => by
    obtain ⟨_, lowered, rfl⟩ := yields_asStep.mp run
    exact .step _ (lowerExpression_accounted ord fits lowered)
  | last, .conditional pos cond whenTrue none, ord, fits, run => by
    simp only [Stmt.burden, Nat.max_le] at fits
    simp only [Stmt.skeleton, yields_bind, yields_asStep, yields_inScope, yields_pure] at run
    obtain ⟨_, _, ⟨code, tested, rfl⟩, done, _, named, body, _, ⟨_, drawn, rfl⟩, rfl, rfl⟩ := run
    have testing := Frame.Traces.step (.condition cond) (lowerCondition_acts ord fits.1 tested).accounted
    have ord := (ord.steady testing.steady).steady (newLabel_steady named)
    have inside := (Stmt.skeletons_traces false whenTrue ord fits.2 drawn).inScope
    obtain ⟨ends, _, skips⟩ := guides_of_newLabel named
    rw [List.append_assoc, List.append_assoc]
    refine testing.then_ (.mark named inside (.inl (by simp)) (by simp +contextual) ?_)
    simpa [or_imp, forall_and] using ⟨skips.stands, inside.items, ends.stands⟩
  | last, .conditional pos cond whenTrue (some otherwise), ord, fits, run => by
    simp only [Stmt.burden, Nat.max_le] at fits
    simp only [Stmt.skeleton, yields_bind, yields_asStep, yields_inScope, yields_pure] at run
    obtain ⟨_, _, ⟨code, tested, rfl⟩, done, _, named, other, _, renamed, body, _, ⟨_, drawn, rfl⟩, rest, _,
      ⟨_, redrawn, rfl⟩, rfl, rfl⟩ := run
    have testing := Frame.Traces.step (.condition cond) (lowerCondition_acts ord fits.1 tested).accounted
    have ord := ((ord.steady testing.steady).steady (newLabel_steady named)).steady
      (newLabel_steady renamed)
    have inside := (Stmt.skeletons_traces false whenTrue ord fits.2.1 drawn).inScope
    have beside := (Stmt.skeletons_traces false otherwise (ord.steady inside.steady) fits.2.2
      redrawn).inScope
    obtain ⟨ends, leaves, _⟩ := guides_of_newLabel named
    obtain ⟨turns, _, skips⟩ := guides_of_newLabel renamed
    have first : Frame.Traces _ env weight _ (body ++ [.line (.label other)]) _ :=
      .mark renamed inside (.inl (by simp)) (by simp +contextual)
        (by simpa [or_imp, forall_and] using ⟨inside.items, turns.stands⟩)
    have both := first.append beside
    obtain ⟨ahead, behind⟩ := List.forall_mem_append.mp both.items
    obtain ⟨ahead, _⟩ := List.forall_mem_append.mp ahead
    have counts : Stmt.labelCounts whenTrue + 1 + Stmt.labelCounts otherwise + 1 =
        Stmt.labelCounts whenTrue + Stmt.labelCounts otherwise + 2 := by omega
    rw [Stmt.labelCount, ← counts]
    simp only [List.append_assoc]
    refine testing.then_ (.mark named both (.inl (by simp)) ?_ ?_)
    · grind
    · simpa [or_imp, forall_and] using
        ⟨skips.stands, ahead, leaves.stands, turns.stands, behind, ends.stands⟩
  | last, .loop pos cond body, ord, fits, run => by
    simp only [Stmt.burden, Nat.max_le] at fits
    simp only [Stmt.skeleton, yields_bind, yields_asStep, yields_inScope, yields_pure] at run
    obtain ⟨start, _, named, done, _, renamed, _, _, ⟨code, tested, rfl⟩, inner, _, ⟨_, drawn, rfl⟩, rfl, rfl⟩ :=
      run
    have ord := (ord.steady (newLabel_steady named)).steady (newLabel_steady renamed)
    have testing := Frame.Traces.step (.condition cond) (lowerCondition_acts ord fits.1 tested).accounted
    have inside := (Stmt.skeletons_traces false body (ord.steady testing.steady) fits.2 drawn).inScope
    obtain ⟨begins, returns, _⟩ := guides_of_newLabel named
    obtain ⟨ends, _, skips⟩ := guides_of_newLabel renamed
    have both := testing.then_ inside
    have closed : Frame.Traces _ env weight _
        ([.step (.condition cond) code] ++ inner ++ [.line (.label done)]) _ :=
      .mark renamed both (.inl (by simp)) (by simp +contextual)
        (List.forall_mem_append.mpr ⟨both.items, List.forall_mem_singleton.mpr ends.stands⟩)
    obtain ⟨ahead, _⟩ := List.forall_mem_append.mp closed.items
    obtain ⟨test, ahead⟩ := List.forall_mem_append.mp ahead
    refine .mark named closed (.inr (by simp)) ?_ ?_
    · grind
    · simpa [or_imp, forall_and] using ⟨begins.stands, List.forall_mem_singleton.mp test,
        skips.stands, ahead, returns.stands, ends.stands⟩
  | last, .block pos body, ord, fits, run => by
    obtain ⟨_, drawn, rfl⟩ := yields_inScope.mp run
    exact (Stmt.skeletons_traces last body ord fits drawn).inScope

theorem Stmt.skeletons_traces :
    (top : Bool) → (stmts : List Stmt) → frame.Ordinary → Stmt.burdens env stmts ≤ weight →
      Yields (Stmt.skeletons top stmts) env frame items next →
      frame.Traces env weight (Stmt.labelCounts stmts) items next
  | top, [], ord, fits, run => by
    obtain ⟨rfl, rfl⟩ := yields_pure.mp run
    exact .nil _
  | top, stmt :: rest, ord, fits, run => by
    simp only [Stmt.burdens, Nat.max_le] at fits
    simp only [Stmt.skeletons, yields_bind] at run
    obtain ⟨comment, mid, commented, items, _, drawn, run⟩ := run
    have noting : frame.Traces env weight 0 (comment.map .line) mid := commentFor_traces commented
    have leading := noting.then_
      (Stmt.skeleton_traces _ stmt (ord.steady noting.steady) fits.1 drawn)
    have continued : ∀ {others after}, Yields (Stmt.skeletons top rest) env _ others after →
        frame.Traces env weight (stmt.labelCount + Stmt.labelCounts rest)
          (comment.map .line ++ items ++ others) after :=
      fun following => leading.append
        (Stmt.skeletons_traces top rest (ord.steady leading.steady) fits.2 following)
    rw [Stmt.labelCounts]
    split at run
    · rename_i returns
      simp only [yields_bind, yields_pure] at run
      obtain ⟨_, _, warned, rfl, rfl⟩ := run
      obtain rfl := yields_warn.mp warned
      rw [returns, if_pos rfl, Nat.add_zero]
      exact ⟨leading.steady.trans ⟨rfl, rfl, Nat.add_comm _ _⟩, leading.counted, leading.labels,
        leading.closed, leading.notes, leading.items⟩
    · rename_i rest _ _ goesOn
      have counts : (if stmt.isReturn then 0 else Stmt.labelCounts rest) = Stmt.labelCounts rest := by
        cases rest <;> simp_all [Stmt.labelCounts]
      simp only [yields_bind, yields_pure] at run
      obtain ⟨_, _, after, rfl, rfl⟩ := run
      exact counts.symm ▸ continued after

end

theorem Stmt.lower_settles (last : Bool) (stmt : Stmt) (ord : frame.Ordinary)
    (fits : stmt.burden env ≤ weight) (run : Yields (stmt.lower last) env frame code next) :
    frame.Settles env weight code next := by
  rw [lower_eq_skeleton, yields_map] at run
  obtain ⟨skeleton, drawn, rfl⟩ := run
  exact (skeleton_traces last stmt ord fits drawn).settles

namespace Method

variable {method : Method} {env : Env} {frame next : Frame} {code : Code}

/-- The code of a body is that of its parameters and of a skeleton. -/
theorem lowerBodyUnchecked_traces (ord : frame.Ordinary)
    (run : Yields method.lowerBodyUnchecked env frame code next) :
    ∃ params mid skeleton, Yields (lowerParameters method.name 0 method.parameters) env frame params
        mid ∧ Yields (Stmt.skeletons true (method.body.getD [])) env mid skeleton next ∧
      code = params ++ skeleton.code ∧ mid.Traces env (method.burden env)
        (Stmt.labelCounts (method.body.getD [])) skeleton next := by
  simp only [lowerBodyUnchecked, Stmt.lowerBlock_eq_skeletons, yields_bind, yields_map, yields_pure] at run
  obtain ⟨params, mid, entered, _, _, ⟨skeleton, drawn, rfl⟩, rfl, rfl⟩ := run
  have acts : frame.Acts env 0 params mid := lowerParameters_acts entered
  exact ⟨params, mid, skeleton, entered, drawn, rfl,
    Stmt.skeletons_traces true _ (ord.steady acts.steady) (Nat.le_refl _) drawn⟩

theorem lowerBodyUnchecked_settles (ord : frame.Ordinary)
    (run : Yields method.lowerBodyUnchecked env frame code next) :
    frame.Settles env (method.burden env) code next := by
  obtain ⟨params, mid, skeleton, entered, _, rfl, traces⟩ := lowerBodyUnchecked_traces ord run
  exact (lowerParameters_acts entered).toSettles.append traces.settles

/-- In an empty frame the check that the stacks are balanced always passes. -/
theorem lowerBody_eq_unchecked (method : Method) (env : Env) :
    method.lowerBody env {} = method.lowerBodyUnchecked env {} := by
  have checked : method.lowerBody = (do
      let code ← method.lowerBodyUnchecked
      let frame ← get
      if frame.pushes != frame.pops || frame.depth != 0 || !frame.held.isEmpty then
        fail method.position (.unbalanced method.name frame.pushes frame.pops frame.held.length)
      else return code) := by
    simp only [lowerBody, lowerBodyUnchecked, bind_assoc, pure_bind]
  rw [checked]
  cases outcome : method.lowerBodyUnchecked env {} with
  | error halt => simp [bind, ReaderT.bind, StateT.bind, Except.bind, outcome]
  | ok pair =>
    obtain ⟨code, next⟩ := pair
    have steady := (lowerBodyUnchecked_settles (by simp [Frame.Ordinary]) outcome).steady
    have balanced : next.pushes = next.pops := by simpa using steady.balance
    refine yields_bind.mpr ⟨code, next, outcome, ?_⟩
    simp [steady.depth, steady.held, balanced]

end Method

end Nasm64
