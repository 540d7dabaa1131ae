import Nasm64.Proofs.Stack.Assign

/-! Returns, expressions, conditions and parameters are simple as well. The rest of a method body are
labels and jumps between such code. -/
namespace Nasm64

open Lower

namespace Stmt

mutual

/-- A bound on the bytes that the code of a statement puts on the machine stack at once. -/
def burden (env : Env) : Stmt → Nat
  | declaration _ _ _ init => init.elim 0 fun value => value.burden env
  | assignment _ target value => max (target.burden env) (value.burden env)
  | returning _ value => value.elim 0 fun value => value.burden env
  | expression _ value => value.burden env
  | conditional _ condition whenTrue none => max (condition.burden env) (burdens env whenTrue)
  | conditional _ condition whenTrue (some otherwise) =>
    max (condition.burden env) (max (burdens env whenTrue) (burdens env otherwise))
  | loop _ condition body => max (condition.burden env) (burdens env body)
  | block _ body => burdens env body

def burdens (env : Env) : List Stmt → Nat
  | [] => 0
  | stmt :: rest => max (stmt.burden env) (burdens env rest)

end

end Stmt

/-- A bound on the bytes below the frame of a method. -/
def Method.burden (env : Env) (method : Method) : Nat := Stmt.burdens env (method.body.getD [])

def Line.target? : Line → Option String
  | unary .jmp operand | unary .je operand => some operand.text
  | _ => none

theorem Line.target?_of_plain {line : Line} (plain : line.isStraight = true ∨ line.isMark = false) :
    line.target? = none := by
  unfold target?
  split
  · rcases plain with plain | plain <;> cases plain
  · rcases plain with plain | plain <;> cases plain
  · rfl

namespace Lower

variable {env : Env} {frame next : Frame} {weight : Nat} {code : Code}

theorem resultRegister_volatile (res : Ty) :
    ((Call.resultRegister? res).getD ⟨.rax, 0⟩).family.isVolatile = true := by
  unfold Call.resultRegister?
  split
  · rfl
  · split
    · rfl
    · split <;> rfl

theorem read_run (env : Env) (frame : Frame) : (read : Lower Env) env frame = .ok (env, frame) := rfl

/-- A return jumps to the end of the method, unless it comes last. -/
theorem lowerReturn_eq (pos : Position) (v : Option Expr) (last : Bool) :
    lowerReturn pos v last = do
      let code ← lowerReturn pos v true
      let env ← read
      return code ++ if last then [] else [.jump env.resultLabel] := by
  funext env frame
  simp only [lowerReturn, bind_eq, read_run]
  by_cases isVoid : env.signature.result.isVoid = true
  · cases v <;> simp only [isVoid, if_true] <;> rfl
  · cases v with
    | none =>
      simp only [isVoid]
      rfl
    | some v =>
      simp only [isVoid, Bool.false_eq_true, if_false, if_true, bind_eq, List.append_nil]
      cases v.lowering.into _ env frame <;> rfl

theorem lowerReturn_acts (ord : frame.Ordinary) (fits : v.elim 0 (fun v => v.burden env) ≤ weight)
    (run : Yields (lowerReturn pos v true) env frame code next) :
    frame.Acts env weight code next := by
  simp only [lowerReturn, yields_bind, yields_read, and_assoc, exists_and_left,
    exists_eq_left', if_true, List.append_nil] at run
  cases v with
  | none =>
    simp only [yields_ite, yields_pure, yields_fail, and_false, or_false] at run
    obtain ⟨_, rfl, rfl⟩ := run
    exact .nil _
  | some v =>
    simp only [yields_ite, yields_fail, and_false, false_or, yields_bind, yields_pure] at run
    obtain ⟨_, _, _, lowered, rfl, rfl⟩ := run
    exact into_acts ord fits lowered (resultRegister_volatile _)

theorem Frame.Acts.accounted (acts : frame.Acts env weight code next) :
    frame.Performs env weight code next ∧
      ∃ calls, Accounts frame.touched frame.top calls code next.touched := by
  obtain ⟨calls, accounts⟩ := acts.accounts
  exact ⟨acts.toPerforms, calls, accounts.absorb (by simp)⟩

/-- The value of an expression may be left in the register that values are computed in. -/
theorem lowerExpression_accounted (ord : frame.Ordinary) (fits : v.burden env ≤ weight)
    (run : Yields (lowerExpression v) env frame code next) :
    frame.Performs env weight code next ∧
      ∃ calls, Accounts frame.touched frame.top calls code next.touched := by
  unfold lowerExpression at run
  split at run
  · simp only [yields_bind, yields_pure] at run
    obtain ⟨frag, _, lowered, rfl, rfl⟩ := run
    obtain ⟨⟨kept, emits⟩, accounts⟩ := ((v.lowering_orderly env).mono fits).value ord lowered
    exact ⟨⟨⟨kept.steady, .bracketed emits.bracketed⟩, kept.labels, emits.bracketed.unmarked⟩, _,
      accounts⟩
  · exact (into_acts ord fits run (accumulatorFor_volatile _)).accounted

theorem lowerCondition_acts (ordinary : frame.Ordinary) (fits : condition.burden env ≤ weight)
    (run : Yields (lowerCondition condition) env frame code next) :
    frame.Acts env weight code next := by
  unfold lowerCondition at run
  split at run
  · simp at run
  · simp only [yields_bind, yields_pure] at run
    obtain ⟨_, _, lowered, rfl, rfl⟩ := run
    refine (into_acts ordinary fits lowered rfl).lines fun line mem => ?_
    obtain rfl := List.mem_singleton.mp mem
    exact ⟨rfl, rfl, rfl, by rintro _ ⟨⟩⟩

def Env.localLabel (env : Env) (number : Nat) : String :=
  ".L" ++ toString env.method ++ "_" ++ toString number

theorem yields_newLabel :
    Yields newLabel env frame label next ↔
      label = env.localLabel (frame.labels + 1) ∧
      next = { frame with labels := frame.labels + 1 } := by
  simp [newLabel, Env.localLabel, and_assoc]
  grind

theorem yields_commentFor : Yields (commentFor stmt) env frame code next ↔
    code = (if env.hasFeature .asmComments then [.comment stmt.describe] else []) ∧ frame = next := by
  have step : commentFor stmt env frame =
      .ok (if env.hasFeature .asmComments then [.comment stmt.describe] else [], frame) := by
    show (if env.hasFeature .asmComments then _ else _ : Lower Code) env frame = _
    split <;> rfl
  rw [Yields, step, Except.ok.injEq, Prod.mk.injEq, eq_comm]

theorem yields_inScope {α : Type} {body : Lower α} {res : α} :
    Yields (inScope body) env frame res next ↔
      ∃ after, Yields body env frame res after ∧ next = { after with scope := frame.scope } := by
  simp [inScope, and_assoc]
  grind

theorem newLabel_steady (run : Yields newLabel env frame label next) : frame.Steady next := by
  obtain ⟨_, rfl⟩ := yields_newLabel.mp run
  exact ⟨rfl, rfl, Nat.add_comm _ _⟩

def Env.IsInner (env : Env) (name : String) : Prop :=
  name = env.resultLabel ∨ ∃ number, name = env.localLabel number

def Env.Stays (env : Env) (line : Line) : Prop :=
  line ≠ .plain .ret ∧ ∀ name, line.target? = some name → env.IsInner name

theorem Env.stays_of_isStraight (straight : line.isStraight = true) : env.Stays line := by
  refine ⟨?_, by simp [Line.target?_of_plain (.inl straight)]⟩
  rintro rfl
  cases straight

/-- A line that only marks or changes where control goes in the method. -/
structure Env.Guides (env : Env) (line : Line) : Prop where
  displacement : line.displacement? = some 0
  silent : line.isCall = false
  writes : line.writes = []
  stays : env.Stays line

theorem guides_of_newLabel (named : Yields newLabel env frame label next) :
    env.Guides (.label label) ∧ env.Guides (.jump label) ∧ env.Guides (.jumpIfZero label) := by
  obtain ⟨rfl, _⟩ := yields_newLabel.mp named
  refine ⟨⟨rfl, rfl, rfl, ?_⟩, ⟨rfl, rfl, rfl, ?_⟩, ⟨rfl, rfl, rfl, ?_⟩⟩
  all_goals simp [Line.jump, Line.jumpIfZero, Env.Stays, Line.target?, Operand.text, Env.IsInner]

theorem lowerParameter_acts (run : Yields (lowerParameter method idx param) env frame code next) :
    frame.Acts env weight code next := by
  simp only [lowerParameter, yields_ite, yields_fail, and_false, false_or, yields_bind] at run
  obtain ⟨_, slot, mid, allocated, run⟩ := run
  refine .of_rests (allocate_rests allocated) ?_
  split at run
  · obtain ⟨rfl, rfl⟩ := yields_pure.mp run
    exact .of_still store_still
  · obtain ⟨rfl, rfl⟩ := yields_pure.mp run
    refine .of_still (List.forall_mem_cons.mpr ⟨?_, List.forall_mem_singleton.mpr ?_⟩)
    · refine ⟨displacement?_binary ?_ (by simp), rfl, rfl, ?_⟩
      · rintro _ ⟨⟩
        simp
      · rintro fam (_ | ⟨_, ⟨⟩⟩)
        rfl
    · exact ⟨displacement?_binary (by simp) (by simp), rfl, rfl, by rintro _ ⟨⟩⟩

section

variable (run : Yields (lowerParameters method idx params) env frame code next)

include run

theorem lowerParameters_acts : frame.Acts env weight code next := by
  induction params generalizing frame idx code with
  | nil =>
    obtain ⟨rfl, rfl⟩ := yields_pure.mp run
    exact .nil _
  | cons param rest ih =>
    simp only [lowerParameters, yields_bind, yields_pure] at run
    obtain ⟨_, _, first, _, _, others, rfl, rfl⟩ := run
    exact (lowerParameter_acts first).append (ih others)

end

end Lower

/-- The code of a body, without the check that the stacks are balanced. -/
def Method.lowerBodyUnchecked (method : Method) : Lower Code := do
  let parameters ← lowerParameters method.name 0 method.parameters
  let body ← Stmt.lowerBlock true (method.body.getD [])
  return parameters ++ body

end Nasm64
