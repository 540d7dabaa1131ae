import Nasm64.Tree.Basic

/-! Types, kinds and descriptions of nodes. -/
namespace Nasm64

inductive NodeKind where
  | number | float | bool | string | identifier
  | binary | unary | dereference | addressOf | cast | call | index | member | structLiteral
  | declaration | assignment | returning | expression | conditional | loop | block
  | method
deriving DecidableEq, Repr, Inhabited

namespace NodeKind

def all : List NodeKind :=
  [number, float, bool, string, identifier, binary, unary, dereference, addressOf, cast, call,
    index, member, structLiteral, declaration, assignment, returning, expression, conditional,
    loop, block, method]

def name : NodeKind → String
  | number => "number"
  | float => "float"
  | bool => "bool"
  | string => "string"
  | identifier => "identifier"
  | binary => "binary"
  | unary => "unary"
  | dereference => "dereference"
  | addressOf => "address-of"
  | cast => "cast"
  | call => "call"
  | index => "index"
  | member => "member"
  | structLiteral => "struct literal"
  | declaration => "let"
  | assignment => "assignment"
  | returning => "return"
  | expression => "expression statement"
  | conditional => "if"
  | loop => "while"
  | block => "block"
  | method => "method"

def nameOfCode (code : Int) : String :=
  if code < 0 then "NodeType(" ++ toString code ++ ")"
  else match all[code.toNat]? with
    | some kind => kind.name
    | none => "NodeType(" ++ toString code ++ ")"

def describe (kind : NodeKind) (detail : Option String) (position : Position) : String :=
  let what := match detail with
    | some detail => kind.name ++ " '" ++ detail ++ "'"
    | none => kind.name
  if 0 < position.line then
    what ++ " at " ++ toString position.line ++ ":" ++ toString position.column
  else what

end NodeKind

namespace Expr

def position : Expr → Position
  | number position .. | float position .. | bool position _ | string position _
  | ident position .. | binary position .. | unary position .. | deref position _
  | addressOf position _ | cast position .. | call position .. | index position ..
  | member position .. | struct position .. => position

/-- The struct that a member is taken of, through a pointer or directly. -/
def record (base : Ty) : Ty := if base.isPointer then base.target else base

def type : Expr → Ty
  | number _ _ type | float _ _ type | ident _ _ type | binary _ _ _ _ type
  | cast _ _ type | call _ _ _ type | struct _ type _ => type
  | bool _ _ => .prim .bool
  | string _ _ => .pointer (.prim .u8)
  | unary _ .not _ => .prim .bool
  | unary _ _ operand => operand.type
  | deref _ pointer => pointer.type.target
  | addressOf _ place => .pointer place.type
  | index _ base _ => base.type.target
  | member _ base field =>
    match (record base.type).field? field with
    | some field => field.type
    | none => .void

def kind : Expr → NodeKind
  | number .. => .number
  | float .. => .float
  | bool .. => .bool
  | string .. => .string
  | ident .. => .identifier
  | binary .. => .binary
  | unary .. => .unary
  | deref .. => .dereference
  | addressOf .. => .addressOf
  | cast .. => .cast
  | call .. => .call
  | index .. => .index
  | member .. => .member
  | struct .. => .structLiteral

def detail : Expr → Option String
  | binary _ op _ _ _ => some op.spelling
  | unary _ op _ => some op.spelling
  | ident _ name _ => some name
  | call _ name _ _ => some name
  | _ => none

def describe (expr : Expr) : String := expr.kind.describe expr.detail expr.position

/-- An expression is a leaf unless it is a binary one, looking through prefix operators. -/
def isLeaf : Expr → Bool
  | binary .. => false
  | unary _ _ operand | deref _ operand | addressOf _ operand | cast _ operand _ => operand.isLeaf
  | _ => true

def isPlace : Expr → Bool
  | ident .. | index .. | member .. | deref .. => true
  | _ => false

end Expr

namespace Stmt

def position : Stmt → Position
  | declaration position .. | assignment position .. | returning position _
  | expression position _ | conditional position .. | loop position .. | block position _ => position

def kind : Stmt → NodeKind
  | declaration .. => .declaration
  | assignment .. => .assignment
  | returning .. => .returning
  | expression .. => .expression
  | conditional .. => .conditional
  | loop .. => .loop
  | block .. => .block

def describe (stmt : Stmt) : String := stmt.kind.describe none stmt.position

def isReturn : Stmt → Bool
  | returning .. => true
  | _ => false

end Stmt

def Method.describe (method : Method) : String :=
  NodeKind.method.describe (some method.name) method.position

end Nasm64
