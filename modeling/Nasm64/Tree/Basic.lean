import Nasm64.Double.Basic
import Nasm64.Operator
import Nasm64.Ty.Layout

/-! Checked programs: expressions that know their type, statements and methods. -/
namespace Nasm64

/-- Line and column of a node, counted from one, and its length. Line zero is no position. -/
structure Position where
  line : Int := 0
  column : Int := 0
  length : Int := 0
deriving DecidableEq, Repr, Inhabited

namespace Position

/-- Puts the line and column in front of a text, when there is a line. -/
def mark (position : Position) (text : String) : String :=
  if 0 < position.line then
    toString position.line ++ ":" ++ toString position.column ++ ": " ++ text
  else text

end Position

inductive Expr where
  | number (position : Position) (value : Int64) (type : Ty)
  | float (position : Position) (value : Double) (type : Ty)
  | bool (position : Position) (value : Bool)
  | string (position : Position) (text : String)
  | ident (position : Position) (name : String) (type : Ty)
  | binary (position : Position) (op : Operator) (left right : Expr) (type : Ty)
  | unary (position : Position) (op : UnaryOperator) (operand : Expr)
  | deref (position : Position) (pointer : Expr)
  | addressOf (position : Position) (place : Expr)
  | cast (position : Position) (operand : Expr) (target : Ty)
  | call (position : Position) (name : String) (arguments : List Expr) (type : Ty)
  | index (position : Position) (base subscript : Expr)
  | member (position : Position) (base : Expr) (field : String)
  | struct (position : Position) (type : Ty) (fields : List (String × Expr))
deriving Repr, Inhabited

/-- A missing `else` branch and an empty one are different statements. -/
inductive Stmt where
  | declaration (position : Position) (name : String) (type : Ty) (init : Option Expr)
  | assignment (position : Position) (target value : Expr)
  | returning (position : Position) (value : Option Expr)
  | expression (position : Position) (value : Expr)
  | conditional (position : Position) (condition : Expr) (whenTrue : List Stmt)
    (otherwise : Option (List Stmt))
  | loop (position : Position) (condition : Expr) (body : List Stmt)
  | block (position : Position) (body : List Stmt)
deriving Repr, Inhabited

structure Parameter where
  name : String
  type : Ty
deriving Repr, Inhabited

/-- A method without a body lives elsewhere. Only those may take further arguments. -/
structure Method where
  position : Position
  name : String
  parameters : List Parameter
  result : Ty
  body : Option (List Stmt)
  isVariadic : Bool := false
deriving Repr, Inhabited

def Method.isExternal (method : Method) : Bool := method.body.isNone

structure Program where
  file : String
  structs : List Ty
  externals : List Method
  methods : List Method
deriving Repr, Inhabited

end Nasm64
