import Nasm64.Document.Json
import Nasm64.Tree.Basic

/-! Documents by their form alone: objects with the known fields, each of the right kind of value.

A field that is repeated is read over what is there already. Text takes the last value, an object
adds to the earlier one, and an item of a list is read over the last one at its place. Names of
fields are compared without regard to case, and other fields are ignored. -/
namespace Nasm64.Document

/-- The items of a list field, and those a longer list before it has left behind them. -/
structure RawList (α : Type) where
  items : List α := []
  spare : List α := []
deriving Repr, Inhabited

namespace RawList

def places {α : Type} (list : RawList α) : List α := list.items ++ list.spare

/-- Puts new items in the first places. An empty list leaves nothing behind. -/
def refill {α : Type} (list : RawList α) (items : List α) : RawList α :=
  if items.isEmpty then {} else ⟨items, list.places.drop items.length⟩

end RawList

structure RawNode where
  kind : String := ""
  type : String := ""
  pos : RawList Int := {}
  op : String := ""
  value : String := ""
  text : String := ""
  name : String := ""
  field : String := ""
  expr : Option RawNode := none
  lhs : Option RawNode := none
  rhs : Option RawNode := none
  index : Option RawNode := none
  init : Option RawNode := none
  cond : Option RawNode := none
  args : RawList (Option RawNode) := {}
  whenTrue : RawList (Option RawNode) := {}
  otherwise : Option (RawList (Option RawNode)) := none
  body : RawList (Option RawNode) := {}
  fields : RawList (String × Option RawNode) := {}
deriving Repr, Inhabited

structure RawParameter where
  name : String := ""
  type : String := ""
deriving Repr, Inhabited

structure RawStruct where
  name : String := ""
  fields : RawList RawParameter := {}
deriving Repr, Inhabited

structure RawMethod where
  name : String := ""
  pos : RawList Int := {}
  params : RawList RawParameter := {}
  ret : String := ""
  variadic : Bool := false
  body : RawList (Option RawNode) := {}
deriving Repr, Inhabited

structure RawProgram where
  file : String := ""
  structs : RawList RawStruct := {}
  externs : RawList RawMethod := {}
  methods : RawList RawMethod := {}
deriving Repr, Inhabited

inductive Record where
  | program | struct | parameter | method | value | node
deriving DecidableEq, Repr

def Record.name : Record → String
  | program => "wireProgram"
  | struct => "wireStruct"
  | parameter => "wireParam"
  | method => "wireMethod"
  | value => "wireFieldInit"
  | node => "wireNode"

inductive Wanted where
  | text | bool | integer | number
  | record (record : Record)
  /-- An object that may be missing. -/
  | reference (record : Record)
  | list (item : Wanted)
deriving DecidableEq, Repr

def Wanted.name : Wanted → String
  | text => "string"
  | bool => "bool"
  | integer => "int"
  | number => "json.Number"
  | record kind => "ast." ++ kind.name
  | reference kind => "*ast." ++ kind.name
  | list item => "[]" ++ item.name

/-- Where a value stands: the fields that lead to it, the innermost first, and the object that the
innermost one belongs to. -/
structure Place where
  owner : Option Record := none
  path : List String := []
deriving DecidableEq, Repr

def Place.enter (place : Place) (owner : Record) (field : String) : Place :=
  ⟨some owner, field :: place.path⟩

def Place.text (place : Place) : String :=
  match place.owner with
  | none => "value"
  | some owner => "struct field " ++ ".".intercalate (owner.name :: place.path.reverse)

structure Mismatch where
  found : String
  place : Place
  wanted : Wanted
deriving DecidableEq, Repr

def Mismatch.message (mismatch : Mismatch) : String :=
  "json: cannot unmarshal " ++ mismatch.found ++ " into Go " ++ mismatch.place.text ++ " of type " ++
    mismatch.wanted.name

/-- A string in the place of a number that spells none, with its quotes and escapes. -/
structure BadNumber where
  spelled : String
deriving DecidableEq, Repr

def BadNumber.message (error : BadNumber) : String :=
  "json: invalid number literal, trying to unmarshal " ++ Text.quote error.spelled ++ " into Number"

inductive ShapeError where
  | mismatch (mismatch : Mismatch)
  | badNumber (error : BadNumber)
deriving DecidableEq, Repr

def ShapeError.message : ShapeError → String
  | mismatch error => error.message
  | badNumber error => error.message

def kindName : Json → String
  | .null => "null"
  | .bool _ => "bool"
  | .number _ => "number"
  | .string _ => "string"
  | .array _ => "array"
  | .object _ => "object"

/-- Reading goes on after a mismatch, and the first one counts in the end. A bad number ends it. -/
abbrev Shaped := StateT (Option Mismatch) (Except BadNumber)

def Shaped.result {α : Type} (reading : Shaped α) : Except ShapeError α :=
  match reading.run none with
  | .error error => .error (.badNumber error)
  | .ok (_, some mismatch) => .error (.mismatch mismatch)
  | .ok (value, none) => .ok value

def noteMismatch {α : Type} (place : Place) (found : String) (wanted : Wanted) (earlier : α) :
    Shaped α := do
  modify fun first => first <|> some ⟨found, place, wanted⟩
  return earlier

/-- The letters of a field name in lower case. Two letters outside ASCII fold into it. -/
def foldName (name : String) : String :=
  String.ofList (name.toList.map fun c =>
    if c.toNat == 0x17F then 's' else if c.toNat == 0x212A then 'k' else c.toLower)

def readText (place : Place) (earlier : String) : Json → Shaped String
  | .null => return earlier
  | .string spelled => return Json.unescape spelled
  | found => noteMismatch place (kindName found) .text earlier

def readBool (place : Place) (earlier : Bool) : Json → Shaped Bool
  | .null => return earlier
  | .bool value => return value
  | found => noteMismatch place (kindName found) .bool earlier

def isNumber (text : String) : Bool :=
  match text.toList with
  | '-' :: letters => Json.NumberPart.sign.accepts letters
  | letters => Json.NumberPart.sign.accepts letters

def readNumber (place : Place) (earlier : String) : Json → Shaped String
  | .null => return earlier
  | .number text => return text
  | .string spelled =>
    if isNumber (Json.unescape spelled) then return Json.unescape spelled
    else throw ⟨"\"" ++ spelled ++ "\""⟩
  | found => noteMismatch place (kindName found) .number earlier

def readInteger (place : Place) (earlier : Int) : Json → Shaped Int
  | .null => return earlier
  | .number text =>
    match Text.word? text.toList with
    | some value => return value.toInt
    | none => noteMismatch place ("number " ++ text) .integer earlier
  | found => noteMismatch place (kindName found) .integer earlier

/-- Reads items over earlier ones, and new ones from a fresh start. -/
def readItems {α : Type} (read : α → Json → Shaped α) (fresh : α) (earlier : List α) :
    List Json → Shaped (List α)
  | [] => return []
  | item :: rest => do
    let value ← read (earlier.head?.getD fresh) item
    return value :: (← readItems read fresh earlier.tail rest)

def readList {α : Type} (read : Place → α → Json → Shaped α) (item : Wanted) (fresh : α)
    (place : Place) (earlier : RawList α) : Json → Shaped (RawList α)
  | .null => return {}
  | .array items => do return earlier.refill (← readItems (read place) fresh earlier.places items)
  | found => noteMismatch place (kindName found) (.list item) earlier

def readPosition : Place → RawList Int → Json → Shaped (RawList Int) :=
  readList readInteger .integer 0

def readObject {α : Type} (kind : Record) (field : Place → α → String → Json → Shaped α)
    (place : Place) (earlier : α) : Json → Shaped α
  | .null => return earlier
  | .object members =>
    members.foldlM (fun value (name, item) =>
      let name := foldName name
      field (place.enter kind name) value name item) earlier
  | found => noteMismatch place (kindName found) (.record kind) earlier

mutual

def readMembers (place : Place) (node : RawNode) : List (String × Json) → Shaped RawNode
  | [] => return node
  | (name, value) :: rest => do
    let field := foldName name
    let inner := place.enter .node field
    let node ← match field with
      | "kind" => do pure { node with kind := ← readText inner node.kind value }
      | "type" => do pure { node with type := ← readText inner node.type value }
      | "pos" => do pure { node with pos := ← readPosition inner node.pos value }
      | "op" => do pure { node with op := ← readText inner node.op value }
      | "value" => do pure { node with value := ← readNumber inner node.value value }
      | "text" => do pure { node with text := ← readText inner node.text value }
      | "name" => do pure { node with name := ← readText inner node.name value }
      | "field" => do pure { node with field := ← readText inner node.field value }
      | "expr" => do pure { node with expr := ← readNode inner node.expr value }
      | "lhs" => do pure { node with lhs := ← readNode inner node.lhs value }
      | "rhs" => do pure { node with rhs := ← readNode inner node.rhs value }
      | "index" => do pure { node with index := ← readNode inner node.index value }
      | "init" => do pure { node with init := ← readNode inner node.init value }
      | "cond" => do pure { node with cond := ← readNode inner node.cond value }
      | "args" => do pure { node with args := (← readNodes inner node.args value).getD {} }
      | "then" => do pure { node with whenTrue := (← readNodes inner node.whenTrue value).getD {} }
      | "else" => do
        pure { node with otherwise := ← readNodes inner (node.otherwise.getD {}) value }
      | "body" => do pure { node with body := (← readNodes inner node.body value).getD {} }
      | "fields" => do pure { node with fields := ← readFields inner node.fields value }
      | _ => pure node
    readMembers place node rest
termination_by structural members => members

def readNode (place : Place) (earlier : Option RawNode) : Json → Shaped (Option RawNode)
  | .null => return none
  | .object members => do return some (← readMembers place (earlier.getD {}) members)
  | found => noteMismatch place (kindName found) (.record .node) earlier
termination_by structural value => value

def readNodeItems (place : Place) (earlier : List (Option RawNode)) :
    List Json → Shaped (List (Option RawNode))
  | [] => return []
  | item :: rest => do
    let node ← readNode place (earlier.head?.getD none) item
    return node :: (← readNodeItems place earlier.tail rest)
termination_by structural items => items

/-- Reads a list of nodes. A list that is null is a missing one. -/
def readNodes (place : Place) (earlier : RawList (Option RawNode)) :
    Json → Shaped (Option (RawList (Option RawNode)))
  | .null => return none
  | .array items => do return some (earlier.refill (← readNodeItems place earlier.places items))
  | found => noteMismatch place (kindName found) (.list (.reference .node)) (some earlier)
termination_by structural value => value

def readFieldMembers (place : Place) (field : String × Option RawNode) :
    List (String × Json) → Shaped (String × Option RawNode)
  | [] => return field
  | (name, value) :: rest => do
    let inner := place.enter .value (foldName name)
    let field ← match foldName name with
      | "name" => do pure (← readText inner field.1 value, field.2)
      | "value" => do pure (field.1, ← readNode inner field.2 value)
      | _ => pure field
    readFieldMembers place field rest
termination_by structural members => members

def readField (place : Place) (earlier : String × Option RawNode) :
    Json → Shaped (String × Option RawNode)
  | .null => return earlier
  | .object members => readFieldMembers place earlier members
  | found => noteMismatch place (kindName found) (.record .value) earlier
termination_by structural value => value

def readFieldItems (place : Place) (earlier : List (String × Option RawNode)) :
    List Json → Shaped (List (String × Option RawNode))
  | [] => return []
  | item :: rest => do
    let field ← readField place (earlier.head?.getD ("", none)) item
    return field :: (← readFieldItems place earlier.tail rest)
termination_by structural items => items

def readFields (place : Place) (earlier : RawList (String × Option RawNode)) :
    Json → Shaped (RawList (String × Option RawNode))
  | .null => return {}
  | .array items => do return earlier.refill (← readFieldItems place earlier.places items)
  | found => noteMismatch place (kindName found) (.list (.record .value)) earlier
termination_by structural value => value

end

def readParameter : Place → RawParameter → Json → Shaped RawParameter :=
  readObject .parameter fun place parameter name value =>
    match name with
    | "name" => do return { parameter with name := ← readText place parameter.name value }
    | "type" => do return { parameter with type := ← readText place parameter.type value }
    | _ => return parameter

def readParameterList : Place → RawList RawParameter → Json → Shaped (RawList RawParameter) :=
  readList readParameter (.record .parameter) {}

def readStruct : Place → RawStruct → Json → Shaped RawStruct :=
  readObject .struct fun place record name value =>
    match name with
    | "name" => do return { record with name := ← readText place record.name value }
    | "fields" => do return { record with fields := ← readParameterList place record.fields value }
    | _ => return record

def readMethod : Place → RawMethod → Json → Shaped RawMethod :=
  readObject .method fun place method name value =>
    match name with
    | "name" => do return { method with name := ← readText place method.name value }
    | "pos" => do return { method with pos := ← readPosition place method.pos value }
    | "params" => do return { method with params := ← readParameterList place method.params value }
    | "ret" => do return { method with ret := ← readText place method.ret value }
    | "variadic" => do return { method with variadic := ← readBool place method.variadic value }
    | "body" => do return { method with body := (← readNodes place method.body value).getD {} }
    | _ => return method

def readMethodList : Place → RawList RawMethod → Json → Shaped (RawList RawMethod) :=
  readList readMethod (.record .method) {}

def readProgram : Place → RawProgram → Json → Shaped RawProgram :=
  readObject .program fun place program name value =>
    match name with
    | "file" => do return { program with file := ← readText place program.file value }
    | "structs" => do
      return { program with
        structs := ← readList readStruct (.record .struct) {} place program.structs value }
    | "externs" => do return { program with externs := ← readMethodList place program.externs value }
    | "methods" => do return { program with methods := ← readMethodList place program.methods value }
    | _ => return program

end Nasm64.Document
