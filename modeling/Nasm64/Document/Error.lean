import Nasm64.Document.Raw
import Nasm64.Ty.Reading

/-! Why a document is no checked program. -/
namespace Nasm64.Document

inductive Problem where
  | structTwice (name : String)
  | fieldType (struct field : String) (error : Ty.ReadError)
  | type (error : Ty.ReadError)
  | nullStatement
  | missingExpression
  | unknownStatement (kind : String)
  | unknownExpression (kind : String)
  | untyped (kind : String)
  | badInteger (text : String)
  | badFloat (text : String)
  | unknownBinary (op : String)
  | unknownUnary (op : String)
  | notAPointer
  | notIndexable
  | notAStruct (field : String)
  | noField (struct field : String)
deriving DecidableEq, Repr

def Problem.message : Problem → String
  | structTwice name => "struct '" ++ name ++ "' declared twice"
  | fieldType struct field error =>
    "struct '" ++ struct ++ "' field '" ++ field ++ "': " ++ error.message
  | type error => error.message
  | nullStatement => "null statement"
  | missingExpression => "missing expression"
  | unknownStatement kind => "unknown statement kind '" ++ kind ++ "'"
  | unknownExpression kind => "unknown expression kind '" ++ kind ++ "'"
  | untyped kind => kind ++ " expression has no type"
  | badInteger text => "bad integer literal '" ++ text ++ "'"
  | badFloat text => "bad float literal '" ++ text ++ "'"
  | unknownBinary op => "unknown binary operator '" ++ op ++ "'"
  | unknownUnary op => "unknown unary operator '" ++ op ++ "'"
  | notAPointer => "dereference of non-pointer"
  | notIndexable => "indexing a value that is neither array nor pointer"
  | notAStruct field => "member access '." ++ field ++ "' on non-struct"
  | noField struct field => "struct '" ++ struct ++ "' has no field '" ++ field ++ "'"

structure Failure where
  position : Position := {}
  problem : Problem
deriving DecidableEq, Repr

def Failure.message (failure : Failure) : String :=
  failure.position.mark failure.problem.message

/-- The text is not JSON, its values have the wrong form, or they do not make a program. -/
inductive Error where
  | notJson (error : Json.SyntaxError)
  | shape (error : ShapeError)
  | invalid (failure : Failure)
deriving DecidableEq, Repr

def Error.message : Error → String
  | notJson error => "decoding typed AST: " ++ error.message
  | shape error => "decoding typed AST: " ++ error.message
  | invalid failure => failure.message

end Nasm64.Document
