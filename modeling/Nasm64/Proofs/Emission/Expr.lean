import Nasm64.Lower.Node
import Nasm64.Proofs.Emission.Binary
import Nasm64.Proofs.Emission.Call
import Nasm64.Proofs.Emission.Place
import Nasm64.Proofs.Emission.Prefixed

/-! Every expression emits bracketed code that is accounted for, and makes its calls. -/
namespace Nasm64

open Lower

/-- The label of the method that a call means, if there is one. -/
def SymbolTable.label? (table : SymbolTable) (name : String) (types : List Ty) : Option String :=
  (table.lookup name types).toOption.map Signature.label

/-- A consumer may ask for any register but the stack pointer and the frame pointer. -/
def Lower.Demand.IsOrdinary : Demand → Prop
  | .register target => target.family.isOrdinary = true
  | .value | .place | .nested | .unknown => True

namespace Expr

mutual

/-- The most that the code of an expression takes from the machine stack: what operators save and
park, and the areas of its calls. -/
def burden (env : Env) : Expr → Nat
  | number .. | float .. | bool .. | string .. | ident .. => 0
  | binary _ _ left right _ => left.burden env + right.burden env + 16
  | unary _ _ operand | deref _ operand | addressOf _ operand | cast _ operand _ =>
    operand.burden env
  | call _ _ arguments _ => burdens env arguments + env.areaBound arguments.length + 104
  | index _ base subscript => base.burden env + subscript.burden env
  | member _ base _ => base.burden env
  | struct _ _ fields => fieldBurdens env fields
termination_by structural expr => expr

def burdens (env : Env) : List Expr → Nat
  | [] => 0
  | expr :: rest => expr.burden env + burdens env rest
termination_by structural exprs => exprs

def fieldBurdens (env : Env) : List (String × Expr) → Nat
  | [] => 0
  | (_, expr) :: rest => expr.burden env + fieldBurdens env rest
termination_by structural fields => fields

end

mutual

/-- The labels of the calls in an expression, from left to right and the arguments before the call.
There is none for a call that means no method. -/
def callLabels (table : SymbolTable) : Expr → List (Option String)
  | number .. | float .. | bool .. | string .. | ident .. | struct .. => []
  | binary _ _ left right _ => left.callLabels table ++ right.callLabels table
  | unary _ _ operand | deref _ operand | cast _ operand _ | member _ operand _
  | addressOf _ operand => operand.callLabels table
  | call _ name arguments _ =>
    allCallLabels table arguments ++ [table.label? name (arguments.map Expr.type)]
  | index _ base subscript => base.callLabels table ++ subscript.callLabels table
termination_by structural expr => expr

def allCallLabels (table : SymbolTable) : List Expr → List (Option String)
  | [] => []
  | expr :: rest => expr.callLabels table ++ allCallLabels table rest
termination_by structural exprs => exprs

end

variable {table : SymbolTable}

theorem allCallLabels_eq (exprs : List Expr) :
    allCallLabels table exprs = (exprs.map (callLabels table)).flatten := by
  induction exprs with
  | nil => rfl
  | cons expr rest ih => simp [allCallLabels, ih]

theorem callLabels_of_integerLiteral? {expr : Expr} (lit : expr.integerLiteral?.isSome = true) :
    expr.callLabels table = [] := by
  cases expr <;> first | rfl | cases lit

theorem callLabels_of_boolLiteral? {expr : Expr} (lit : expr.boolLiteral?.isSome = true) :
    expr.callLabels table = [] := by
  cases expr <;> first | rfl | cases lit

theorem callLabels_of_constant? {expr : Expr} (const : expr.constant?.isSome = true) :
    expr.callLabels table = [] := by
  induction expr using constant?.induct with
  | case4 pos opnd ih =>
    simp only [constant?, Option.isSome_map] at const
    simpa only [callLabels] using ih const
  | _ => first | rfl | simp_all [constant?]

variable {env : Env}

theorem burden_le_burdens (mem : expr ∈ exprs) : expr.burden env ≤ burdens env exprs := by
  induction exprs with
  | nil => cases mem
  | cons first rest ih =>
    simp only [burdens]
    rcases List.mem_cons.mp mem with rfl | mem
    · omega
    · have := ih mem
      omega

theorem lowerings_eq_map (exprs : List Expr) : lowerings exprs = exprs.map lowering := by
  induction exprs with
  | nil => rfl
  | cons expr rest ih => simp [lowerings, ih]

section

variable {expr : Expr} {weight : Nat} {calls : List (Option String)}

theorem valueOnly_orderly (orderly : Orderly env weight calls v) :
    (expr.valueOnly v).Orderly env weight calls :=
  ⟨orderly, orderly, fun _ _ _ _ _ _ _ run => absurd run yields_fail⟩

theorem atPlace_orderly (findable : Findable env weight calls place) : (expr.atPlace place).Orderly
    env weight calls := ⟨Lowering.load_orderly findable, Lowering.load_orderly findable, findable⟩

end

def fourLeaves : Expr → Expr → Option FourLeaves
  | binary _ leftOp first second _, binary _ rightOp third fourth _ =>
    some ⟨leftOp, rightOp, first.lowering, second.lowering, third.lowering, fourth.lowering⟩
  | _, _ => none

theorem lowering_binary {pos : Position} {op : Operator} {left right : Expr} {ty : Ty} :
    (binary pos op left right ty).lowering =
      (binary pos op left right ty).valueOnly
      (lowerBinary pos op left.lowering right.lowering fun _ => fourLeaves left right) := by
  cases left with
  | binary => cases right <;> rfl
  | _ => rfl

@[simp] theorem lowering_type (expr : Expr) : expr.lowering.type = expr.type := by
  cases expr with
  | unary _ op => cases op <;> rfl
  | binary =>
    rw [lowering_binary]
    rfl
  | _ => rfl

/-- Whatever is asked of an expression, its code is bracketed and makes its calls. -/
theorem lowering_orderly (env : Env) (expr : Expr) :
    expr.lowering.Orderly env (expr.burden env) (expr.callLabels env.table) := by
  cases expr with
  | number pos v ty => exact valueOnly_orderly (lowerNumber_orderly v)
  | float pos v ty => exact valueOnly_orderly (lowerFloat_orderly v)
  | bool pos v =>
    refine valueOnly_orderly fun frame frag next _ run => ?_
    obtain ⟨rfl, rfl⟩ := yields_pure.mp run
    exact .inline (.refl _) (.refl _)
  | string pos text => exact valueOnly_orderly (lowerString_orderly text)
  | ident pos name ty =>
    exact ⟨lowerVariable_orderly name, lowerVariable_orderly name, placeVariable_findable pos name⟩
  | binary pos op left right ty =>
    rw [lowering_binary]
    refine valueOnly_orderly (lowerBinary_orderly (lowering_orderly env left)
      (lowering_orderly env right) (fun four given => ?_) (Nat.le_refl _))
    unfold fourLeaves at given
    split at given
    · cases given
      simp only [burden]
      exact ⟨_, _, _, _, ⟨(lowering_orderly env _).mono (by omega),
        (lowering_orderly env _).mono (by omega), (lowering_orderly env _).mono (by omega),
        (lowering_orderly env _).mono (by omega)⟩, rfl, rfl⟩
    · cases given
  | unary pos op opnd =>
    have inner := lowering_orderly env opnd
    cases op with
    | negate =>
      have free : (opnd.constant?.map Constant.negate).isSome = true →
          opnd.callLabels env.table = [] :=
        fun const => callLabels_of_constant? (by simpa using const)
      exact valueOnly_orderly (lowerNegate_orderly inner free)
    | not => exact valueOnly_orderly (lowerNot_orderly inner callLabels_of_boolLiteral?)
    | complement =>
      exact valueOnly_orderly (lowerComplement_orderly inner callLabels_of_integerLiteral?)
  | deref pos ptr =>
    have place : Findable env (ptr.burden env) (ptr.callLabels env.table)
        (placeDeref pos ptr.lowering) := fun _ _ _ _ _ ord offers run =>
      placePointer_findable (lowering_orderly env ptr) ord offers (yields_placeDeref.mp run).2
    exact ⟨Lowering.load_orderly place, Lowering.address_orderly place, place⟩
  | addressOf pos place =>
    refine valueOnly_orderly (lowerAddressOf_orderly (lowering_orderly env place) ?_)
    intro start code r after started deref nested
    cases place with
    | deref pos ptr => exact Lowering.address_general started nested
    | _ => cases deref
  | cast pos opnd ty =>
    exact valueOnly_orderly (lowerCast_orderly (lowering_orderly env opnd))
  | call pos name args ty =>
    have each : List.Forall₂ (fun arg calls => arg.Orderly env (burdens env args) calls)
        (args.map lowering) (args.map (callLabels env.table)) := by
      rw [List.forall₂_map_left_iff, List.forall₂_map_right_iff, List.forall₂_same]
      exact fun arg listed => (lowering_orderly env arg).mono (burden_le_burdens listed)
    have called : Orderly env (burden env (call pos name args ty)) _
        (lowerCall pos name (args.map lowering)) :=
      lowerCall_orderly each (by simp [burden])
    rw [callLabels, allCallLabels_eq]
    refine valueOnly_orderly ?_
    rw [lowerings_eq_map]
    simpa [SymbolTable.label?, Function.comp_def] using called
  | index pos base idx =>
    refine atPlace_orderly (placeElement_findable ((lowering_orderly env base).mono ?_)
      ((lowering_orderly env idx).mono ?_) callLabels_of_integerLiteral?)
    · simp [burden]
    · simp [burden]
  | member pos base field =>
    exact atPlace_orderly (placeMember_findable (lowering_orderly env base))
  | struct pos ty fields =>
    exact valueOnly_orderly fun _ _ _ _ run => absurd run yields_fail
termination_by sizeOf expr
decreasing_by
  all_goals subst_vars
  all_goals first
    | (simp +arith; done)
    | (have smaller := List.sizeOf_lt_of_mem ‹_›; simp +arith; omega)

theorem lowering_brackets (env : Env) (expr : Expr) : expr.lowering.Brackets env (expr.burden env) :=
  ⟨_, expr.lowering_orderly env⟩

theorem answer_bracketed {env : Env} {frame : Frame} {expr : Expr} {demand : Demand}
    {frag : Lowered} (ord : frame.Ordinary) (usable : demand.IsOrdinary)
    (run : Yields (expr.lowering.answer demand) env frame frag next) :
    (frame.Kept next ∧ Bracketed env frame.depth none (expr.burden env)
        (frame.mayChange frag.results) frag.code) ∧
      frag.code.callees.map some = expr.callLabels env.table := by
  have orderly := expr.lowering_orderly env
  have given : frame.Gives env (expr.burden env) (expr.callLabels env.table) frag next →
      (frame.Kept next ∧ Bracketed env frame.depth none (expr.burden env)
        (frame.mayChange frag.results) frag.code) ∧
        frag.code.callees.map some = expr.callLabels env.table :=
    fun gives => ⟨⟨gives.kept, gives.emits.bracketed⟩, gives.accounts.callees⟩
  cases demand with
  | value => exact given (orderly.value ord run)
  | place => exact given (Lowering.address_orderly orderly.place ord run)
  | nested => exact given (orderly.nested ord run)
  | register r =>
    obtain ⟨_, inner, after, valued, rfl, rfl⟩ := Lowering.yields_prepare.mp run
    have gives := orderly.value (ord.push usable) valued
    have sends := settle_sends usable ((gives.sends (ord.push usable) rfl rfl).under_push ord)
    refine ⟨⟨sends.grown, ?_⟩, sends.accounts.callees⟩
    cases inner with
    | inline opnd => exact sends.bracketed
    | value code src =>
      have results : (settle (.value code src : Lowered) r).results = [r.family] := by
        simp only [settle]
        split
        · rename_i same
          exact congrArg (fun fam => [fam]) (of_decide_eq_true same)
        · rfl
      rw [results]
      exact sends.bracketed
    | effect code =>
      exact Bracketed.widen gives.emits rfl ((Frame.Covers.refl frame).push _) (Nat.le_refl _)
        fun _ mem => by cases mem
  | unknown => exact absurd run yields_fail

end Expr
end Nasm64
