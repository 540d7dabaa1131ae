import Nasm64.Document.Tree

/-! Checked programs from documents. -/
namespace Nasm64.Document

/-- The fields of a struct, each with a type that is known before the struct is. -/
def readFieldTypes (structs : Ty.Structs) (name : String) :
    List RawParameter → Decoded (List (String × Ty))
  | [] => .ok []
  | field :: rest =>
    match Ty.read structs field.type with
    | .error error => refuse {} (.fieldType name field.name error)
    | .ok ty => do return (field.name, ty) :: (← readFieldTypes structs name rest)

def readStructs (structs : Ty.Structs) : List RawStruct → Decoded Ty.Structs
  | [] => .ok structs
  | raw :: rest => do
    if (structs.lookup raw.name).isSome then refuse {} (.structTwice raw.name)
    else
      let fields ← readFieldTypes structs raw.name raw.fields.items
      readStructs ((raw.name, .struct raw.name fields) :: structs) rest

def readParameters (structs : Ty.Structs) (position : Position) (parameters : List RawParameter) :
    Decoded (List Parameter) :=
  parameters.mapM fun parameter => do
    return ⟨parameter.name, ← typeAt structs position parameter.type⟩

def readExternal (structs : Ty.Structs) (raw : RawMethod) : Decoded Method := do
  let position := positionOf raw.pos.items
  let parameters ← readParameters structs position raw.params.items
  let result ← optionalType structs position raw.ret
  return {
    position, name := raw.name, parameters, result := result.getD .void, body := none,
    isVariadic := raw.variadic }

def readDefined (structs : Ty.Structs) (raw : RawMethod) : Decoded Method := do
  let method ← readExternal structs raw
  return { method with body := some (← readStmts structs raw.body.items), isVariadic := false }

def decode (raw : RawProgram) : Decoded Program := do
  let structs ← readStructs [] raw.structs.items
  let externals ← raw.externs.items.mapM (readExternal structs)
  let methods ← raw.methods.items.mapM (readDefined structs)
  return { file := raw.file, structs := structs.reverse.map Prod.snd, externals, methods }

/-- The program of a JSON value. The form of the whole is checked before its content. -/
def ofJson (value : Json) : Except Error Program :=
  match (readProgram {} {} value).result with
  | .error error => .error (.shape error)
  | .ok raw =>
    match decode raw with
    | .error failure => .error (.invalid failure)
    | .ok program => .ok program

def read (text : String) : Except Error Program :=
  match Json.read text with
  | .error error => .error (.notJson error)
  | .ok value => ofJson value

def exprOfJson (structs : Ty.Structs) (value : Json) : Except Error Expr :=
  match (readNode {} none value).result with
  | .error error => .error (.shape error)
  | .ok node => (needExpr structs node).mapError .invalid

def stmtOfJson (structs : Ty.Structs) (value : Json) : Except Error Stmt :=
  match (readNode {} none value).result with
  | .error error => .error (.shape error)
  | .ok node => (needStmt structs node).mapError .invalid

end Nasm64.Document
