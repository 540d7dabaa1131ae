import Nasm64.Lower.Program

/-! Typed programs. The types that the nodes carry agree with each other, with the variables in scope
and with the methods that are called. Whether a node is allowed where it stands is not asked: lowering
reports that. -/
namespace Nasm64

namespace Expr

/-- There is a value, of the type that its consumer declares. An array gives a pointer. -/
def Gives (expr : Expr) (ty : Ty) : Prop := expr.type.isVoid = false ∧ expr.type.decay = ty.decay

mutual

/-- A variable that has a value has its declared type, a binary expression the type of the result of
its operation, and a call that of the result of the method that it means. -/
def Typed (table : SymbolTable) (scope : List (String × Ty)) : Expr → Prop
  | number .. | float .. | bool .. | string .. => True
  | ident _ name ty => ∀ declared, scope.lookup name = some declared → declared.isStruct = false →
    ty = declared
  | binary _ op left right ty => left.Typed table scope ∧ right.Typed table scope ∧
    ∀ operation, Operation.ofTypes left.type op right.type = .ok operation →
      ty = operation.resultType left.type
  | unary _ _ operand | deref _ operand | addressOf _ operand | cast _ operand _
  | member _ operand _ => operand.Typed table scope
  | call _ name arguments ty => ArgumentsTyped table scope arguments ∧
    ∀ signature, table.lookup name (arguments.map type) = .ok signature → ty = signature.result
  | index _ base subscript => base.Typed table scope ∧ subscript.Typed table scope
  | struct _ ty fields => FieldsTyped table scope ty fields
termination_by structural expr => expr

def ArgumentsTyped (table : SymbolTable) (scope : List (String × Ty)) : List Expr → Prop
  | [] => True
  | argument :: rest => (argument.Typed table scope ∧ argument.type.isVoid = false) ∧
    ArgumentsTyped table scope rest
termination_by structural arguments => arguments

def FieldsTyped (table : SymbolTable) (scope : List (String × Ty)) (ty : Ty) :
    List (String × Expr) → Prop
  | [] => True
  | (name, value) :: rest => (value.Typed table scope ∧
    ∀ field, ty.field? name = some field → value.Gives field.type) ∧
    FieldsTyped table scope ty rest
termination_by structural fields => fields

end

variable {table : SymbolTable} {scope : List (String × Ty)}

theorem argumentsTyped_iff : ArgumentsTyped table scope args ↔ ∀ arg ∈ args,
    arg.Typed table scope ∧ arg.type.isVoid = false := by
  induction args with
  | nil => simp [ArgumentsTyped]
  | cons arg rest ih => rw [ArgumentsTyped, ih, List.forall_mem_cons]

theorem typed_of_constant? {expr : Expr} (const : expr.constant?.isSome = true) :
    expr.Typed table scope := by
  induction expr using constant?.induct with
  | case4 pos opnd ih =>
    rw [constant?, Option.isSome_map] at const
    exact ih const
  | case5 => simp_all [constant?]
  | _ => trivial

end Expr

namespace Stmt

/-- The scope that the initializer of a variable is read in. The fields of a literal are stored when
the variable is there. -/
def initializerScope (scope : List (String × Ty)) (name : String) (ty : Ty) :
    Expr → List (String × Ty)
  | .struct .. => if ty.isStruct then (name, ty) :: scope else scope
  | _ => scope

def scopeAfter (scope : List (String × Ty)) : Stmt → List (String × Ty)
  | declaration _ name ty _ => (name, ty) :: scope
  | _ => scope

mutual

/-- Initializers, assigned values and returned values are of the types that are asked for. -/
def Typed (table : SymbolTable) (result : Ty) (scope : List (String × Ty)) : Stmt → Prop
  | declaration _ name ty init => ∀ value ∈ init,
    value.Typed table (initializerScope scope name ty value) ∧ value.Gives ty
  | assignment _ target value => target.Typed table scope ∧ value.Typed table scope ∧
    value.Gives target.type
  | returning _ value => ∀ given ∈ value, given.Typed table scope ∧ given.Gives result
  | expression _ value => value.Typed table scope
  | conditional _ condition whenTrue none => condition.Typed table scope ∧
    BlockTyped table result scope whenTrue
  | conditional _ condition whenTrue (some otherwise) => condition.Typed table scope ∧
    BlockTyped table result scope whenTrue ∧ BlockTyped table result scope otherwise
  | loop _ condition body => condition.Typed table scope ∧ BlockTyped table result scope body
  | block _ body => BlockTyped table result scope body
termination_by structural stmt => stmt

/-- Each statement is typed in the scope that those before it leave. -/
def BlockTyped (table : SymbolTable) (result : Ty) (scope : List (String × Ty)) : List Stmt → Prop
  | [] => True
  | stmt :: rest => stmt.Typed table result scope ∧
    BlockTyped table result (stmt.scopeAfter scope) rest
termination_by structural stmts => stmts

end

end Stmt

namespace Method

/-- Parameters are variables of their decayed types, the last one first. -/
def parameterScope (method : Method) : List (String × Ty) :=
  (method.parameters.map fun parameter => (parameter.name, parameter.type.decay)).reverse

def Typed (table : SymbolTable) (method : Method) : Prop :=
  Stmt.BlockTyped table method.result method.parameterScope (method.body.getD [])

end Method

/-- The methods of a program are typed, if their signatures can be told apart at all. -/
def Program.Typed (program : Program) : Prop :=
  ∀ table, program.symbolTable = .ok table → ∀ method ∈ program.methods, method.Typed table

end Nasm64
