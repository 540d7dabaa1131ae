import Nasm64.Document.Error
import Nasm64.Double.Decimal
import Nasm64.Text.Literal
import Nasm64.Tree.Node

/-! The expressions and statements that raw nodes stand for. -/
namespace Nasm64.Document

abbrev Decoded := Except Failure

def refuse {α : Type} (position : Position) (problem : Problem) : Decoded α :=
  .error ⟨position, problem⟩

def positionOf (pos : List Int) : Position :=
  ⟨pos[0]?.getD 0, pos[1]?.getD 0, pos[2]?.getD 0⟩

def typeAt (structs : Ty.Structs) (position : Position) (text : String) : Decoded Ty :=
  match Ty.read structs text with
  | .ok ty => .ok ty
  | .error error => refuse position (.type error)

def optionalType (structs : Ty.Structs) (position : Position) (text : String) :
    Decoded (Option Ty) :=
  if text.isEmpty then .ok none else some <$> typeAt structs position text

def needType (position : Position) (kind : String) : Option Ty → Decoded Ty
  | some ty => .ok ty
  | none => refuse position (.untyped kind)

/-- A whole number of 64 bits, signed or else unsigned. The upper unsigned half wraps around. -/
def integerLiteral? (text : String) : Option Int64 :=
  match Text.signed? text.toList with
  | some value => some value
  | none => (Text.unsigned? text.toList).map UInt64.toInt64

def integerAt (position : Position) (text : String) : Decoded Int64 :=
  match integerLiteral? text with
  | some value => .ok value
  | none => refuse position (.badInteger text)

def floatAt (position : Position) (text : String) : Decoded Double :=
  match Double.parse? text with
  | some value => .ok value
  | none => refuse position (.badFloat text)

def binaryOperator (position : Position) (text : String) : Decoded Operator :=
  match Operator.ofSpelling? text with
  | some op => .ok op
  | none => refuse position (.unknownBinary text)

def unaryOperator (position : Position) (text : String) : Decoded UnaryOperator :=
  match [UnaryOperator.negate, .not, .complement].find? fun op => op.spelling == text with
  | some op => .ok op
  | none => refuse position (.unknownUnary text)

def makeDeref (position : Position) (pointer : Expr) : Decoded Expr :=
  if pointer.type.isPointer then .ok (.deref position pointer) else refuse position .notAPointer

def makeIndex (position : Position) (base subscript : Expr) : Decoded Expr :=
  if base.type.isArray || base.type.isPointer then .ok (.index position base subscript)
  else refuse position .notIndexable

def makeMember (position : Position) (base : Expr) (field : String) : Decoded Expr :=
  let record := Expr.record base.type
  if !record.isStruct then refuse position (.notAStruct field)
  else if (record.field? field).isNone then refuse position (.noField record.name field)
  else .ok (.member position base field)

mutual

/-- The expression of a node. Its type is read first, whatever the kind. -/
def readExpr (structs : Ty.Structs) : RawNode → Decoded Expr
  | ⟨kind, type, pos, op, value, text, name, field, expr, lhs, rhs, index, _, _, ⟨args, _⟩, _, _, _,
      ⟨fields, _⟩⟩ => do
    let position := positionOf pos.items
    let ty? ← optionalType structs position type
    let need := needType position kind ty?
    match kind with
    | "int" => do
      let ty ← need
      return .number position (← integerAt position value) ty
    | "float" => do
      let ty ← need
      return .float position (← floatAt position value) ty
    | "bool" => return .bool position (value == "1" || text == "true")
    | "string" => return .string position text
    | "ident" => return .ident position name (← need)
    | "binary" => do
      let ty ← need
      let op ← binaryOperator position op
      let left ← needExpr structs lhs
      let right ← needExpr structs rhs
      return .binary position op left right ty
    | "unary" => do
      let op ← unaryOperator position op
      return .unary position op (← needExpr structs expr)
    | "deref" => do makeDeref position (← needExpr structs expr)
    | "addr" => do return .addressOf position (← needExpr structs expr)
    | "cast" => do
      let ty ← need
      return .cast position (← needExpr structs expr) ty
    | "call" => do return .call position name (← readExprs structs args) (ty?.getD .void)
    | "index" => do
      let base ← needExpr structs expr
      let subscript ← needExpr structs index
      makeIndex position base subscript
    | "member" => do makeMember position (← needExpr structs expr) field
    | "struct" => do
      let ty ← need
      return .struct position ty (← readValues structs fields)
    | _ => refuse position (.unknownExpression kind)
termination_by structural node => node

def needExpr (structs : Ty.Structs) : Option RawNode → Decoded Expr
  | none => refuse {} .missingExpression
  | some node => readExpr structs node
termination_by structural node => node

def readExprs (structs : Ty.Structs) : List (Option RawNode) → Decoded (List Expr)
  | [] => .ok []
  | node :: rest => do
    let expr ← needExpr structs node
    return expr :: (← readExprs structs rest)
termination_by structural nodes => nodes

def readValues (structs : Ty.Structs) :
    List (String × Option RawNode) → Decoded (List (String × Expr))
  | [] => .ok []
  | (name, value) :: rest => do
    let value ← needExpr structs value
    return (name, value) :: (← readValues structs rest)
termination_by structural fields => fields

end

def optionalExpr (structs : Ty.Structs) : Option RawNode → Decoded (Option Expr)
  | none => .ok none
  | some node => some <$> readExpr structs node

mutual

def readStmt (structs : Ty.Structs) : RawNode → Decoded Stmt
  | ⟨kind, type, pos, _, _, _, name, _, expr, lhs, rhs, _, init, cond, _, ⟨whenTrue, _⟩, otherwise,
      ⟨body, _⟩, _⟩ => do
    let position := positionOf pos.items
    match kind with
    | "let" => do
      let ty ← typeAt structs position type
      return .declaration position name ty (← optionalExpr structs init)
    | "assign" => do
      let target ← needExpr structs lhs
      let value ← needExpr structs rhs
      return .assignment position target value
    | "return" => do return .returning position (← optionalExpr structs expr)
    | "expr" => do return .expression position (← needExpr structs expr)
    | "if" => do
      let condition ← needExpr structs cond
      let whenTrue ← readStmts structs whenTrue
      return .conditional position condition whenTrue (← optionalStmts structs otherwise)
    | "while" => do
      let condition ← needExpr structs cond
      return .loop position condition (← readStmts structs body)
    | "block" => do return .block position (← readStmts structs body)
    | _ => refuse position (.unknownStatement kind)
termination_by structural node => node

def needStmt (structs : Ty.Structs) : Option RawNode → Decoded Stmt
  | none => refuse {} .nullStatement
  | some node => readStmt structs node
termination_by structural node => node

def readStmts (structs : Ty.Structs) : List (Option RawNode) → Decoded (List Stmt)
  | [] => .ok []
  | node :: rest => do
    let stmt ← needStmt structs node
    return stmt :: (← readStmts structs rest)
termination_by structural nodes => nodes

def optionalStmts (structs : Ty.Structs) :
    Option (RawList (Option RawNode)) → Decoded (Option (List Stmt))
  | none => .ok none
  | some ⟨nodes, _⟩ => some <$> readStmts structs nodes
termination_by structural nodes => nodes

end

end Nasm64.Document
