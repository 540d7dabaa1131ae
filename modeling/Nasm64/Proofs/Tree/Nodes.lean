import Nasm64.Tree.Constant

/-! The parts of a tree. -/
namespace Nasm64

namespace Expr

mutual

def innerNodes : Expr → List Expr
  | number .. | float .. | bool .. | string .. | ident .. => []
  | binary _ _ left right _ => left :: left.innerNodes ++ right :: right.innerNodes
  | unary _ _ operand | deref _ operand | addressOf _ operand | cast _ operand _ | member _ operand _ =>
    operand :: operand.innerNodes
  | call _ _ arguments _ => nodesOf arguments
  | index _ base subscript => base :: base.innerNodes ++ subscript :: subscript.innerNodes
  | struct _ _ fields => fieldNodes fields
termination_by structural expr => expr

def nodesOf : List Expr → List Expr
  | [] => []
  | expr :: rest => expr :: expr.innerNodes ++ nodesOf rest
termination_by structural exprs => exprs

def fieldNodes : List (String × Expr) → List Expr
  | [] => []
  | (_, expr) :: rest => expr :: expr.innerNodes ++ fieldNodes rest
termination_by structural fields => fields

end

def nodes (expr : Expr) : List Expr := expr :: expr.innerNodes

def name? : Expr → Option String
  | ident _ name _ => some name
  | _ => none

def isStructLiteral : Expr → Bool
  | struct .. => true
  | _ => false

def mentions (expr : Expr) : List String := expr.nodes.filterMap name?

def fieldMentions (fields : List (String × Expr)) : List String := (fieldNodes fields).filterMap name?

section

variable {pos : Position} {left right opnd base idx : Expr} {ty : Ty}

@[simp] theorem mentions_ident : (ident pos name ty).mentions = [name] := rfl

@[simp] theorem mentions_binary :
    (binary pos op left right ty).mentions = left.mentions ++ right.mentions := by
  show (left.nodes ++ right.nodes).filterMap name? = _
  exact List.filterMap_append

@[simp] theorem mentions_index : (index pos base idx).mentions = base.mentions ++ idx.mentions := by
  show (base.nodes ++ idx.nodes).filterMap name? = _
  exact List.filterMap_append

theorem mentions_call : (call pos name args ty).mentions = args.flatMap mentions :=
    by
  show (nodesOf args).filterMap name? = _
  induction args with
  | nil => rfl
  | cons arg rest ih =>
    rw [nodesOf, List.filterMap_append, ih, List.flatMap_cons]
    rfl

theorem fieldMentions_eq (fields : List (String × Expr)) :
    fieldMentions fields = fields.flatMap fun field => field.2.mentions := by
  induction fields with
  | nil => rfl
  | cons field rest ih =>
    rw [fieldMentions, fieldNodes, List.filterMap_append, ← fieldMentions, ih, List.flatMap_cons]
    rfl

/-- A constant names no variables. -/
theorem mentions_of_constant? {expr : Expr} (const : expr.constant?.isSome = true) : expr.mentions = [] := by
  induction expr using constant?.induct with
  | case4 pos opnd ih =>
    rw [constant?, Option.isSome_map] at const
    exact ih const
  | case5 => simp_all [constant?]
  | _ => rfl

end

end Expr

namespace Stmt

mutual

def nodes : Stmt → List Expr
  | declaration _ _ _ value | returning _ value => value.elim [] Expr.nodes
  | assignment _ target value => target.nodes ++ value.nodes
  | expression _ value => value.nodes
  | conditional _ condition whenTrue none => condition.nodes ++ nodesOf whenTrue
  | conditional _ condition whenTrue (some otherwise) =>
    condition.nodes ++ (nodesOf whenTrue ++ nodesOf otherwise)
  | loop _ condition body => condition.nodes ++ nodesOf body
  | block _ body => nodesOf body
termination_by structural stmt => stmt

def nodesOf : List Stmt → List Expr
  | [] => []
  | stmt :: rest => stmt.nodes ++ nodesOf rest
termination_by structural stmts => stmts

end

end Stmt

end Nasm64
