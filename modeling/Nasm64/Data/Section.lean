import Nasm64.Hash
import Nasm64.Text.Decimal
import Nasm64.Tree.Constant

/-! Constant data. Labels are derived from the content, so equal constants share one. -/
namespace Nasm64

namespace Data

inductive Directive where
  | byte (value : Int64)
  | word (value : Int64)
  | double (value : Int64)
  | quad (value : Int64)
  | singleBits (bits : UInt32)
  | doubleBits (bits : UInt64)
deriving DecidableEq, Repr

def Directive.text : Directive → String
  | byte value => "db " ++ toString value
  | word value => "dw " ++ toString value
  | double value => "dd " ++ toString value
  | quad value => "dq " ++ toString value
  | singleBits bits => "dd 0x" ++ Text.hex 8 bits.toNat
  | doubleBits bits => "dq 0x" ++ Text.hex 16 bits.toNat

/-- A float is stored as a single when it has four bytes, and as a double otherwise. -/
def Directive.ofDouble (value : Double) (size : Int) : Directive :=
  if size == 4 then .singleBits value.toSingle else .doubleBits value.bits

def Directive.ofWord (value : Int64) (size : Int) : Directive :=
  let value := Word.fold value size true
  if size == 1 then .byte value
  else if size == 2 then .word value
  else if size == 4 then .double value
  else .quad value

/-- The form of a constant in a place of scalar type. A float has no form in any but a float. -/
def Directive.ofConstant? (ty : Ty) (constant : Constant) : Option Directive :=
  if !ty.isScalar then none
  else if ty.isFloat then some (.ofDouble constant.toDouble ty.size.toInt)
  else match constant with
    | .word value => some (.ofWord value ty.size.toInt)
    | .float _ => none

inductive Item where
  /-- The bytes of a text, followed by a zero. -/
  | bytes (content : List UInt8)
  | scalar (directive : Directive)
  /-- Values for some fields of a struct, in the order of its fields. -/
  | record (type : String) (fields : List (String × Directive))
deriving DecidableEq, Repr

def fieldText (type : String) (field : String × Directive) : String :=
  "        at " ++ type ++ "." ++ field.1 ++ ", " ++ field.2.text ++ "\n"

def Item.text : Item → String
  | bytes content =>
    "db " ++ ", ".intercalate (content.map (fun byte => toString byte.toNat) ++ ["0"])
  | scalar directive => directive.text
  | record type fields =>
    "istruc " ++ type ++ "\n" ++ String.join (fields.map (fieldText type)) ++ "    iend"

structure Entry where
  label : String
  item : Item
deriving DecidableEq, Repr

def Entry.text : Entry → String
  | ⟨label, .record type fields⟩ => label ++ ":\n    " ++ (Item.record type fields).text ++ "\n"
  | ⟨label, item⟩ => label ++ ": " ++ item.text ++ "\n"

/-- The labels of some entries. -/
def labelsOf (entries : List Entry) : { labels : List String // labels = entries.map Entry.label } :=
  ⟨_, rfl⟩

end Data

structure DataSection where
  entries : List Data.Entry := []
  /-- The labels that are taken. No entry has another one, and each of these is that of an entry. -/
  seen : { labels : List String // labels = entries.map Data.Entry.label } := Data.labelsOf entries
deriving DecidableEq, Repr

instance : Inhabited DataSection := ⟨{}⟩

namespace DataSection

def hashLabel (kind : String) (bytes : List UInt8) : String :=
  kind ++ "_" ++ Text.hex 16 (Hash.hash64 bytes).toNat

def utf8 (text : String) : List UInt8 := text.toUTF8.data.toList

def add (data : DataSection) (label : String) (item : Data.Item) : DataSection :=
  if data.seen.val.contains label then data
  else ⟨data.entries ++ [⟨label, item⟩], data.seen.val ++ [label], by simp [data.seen.property]⟩

def addString (data : DataSection) (text : String) : String × DataSection :=
  let bytes := utf8 text
  let label := hashLabel "str" bytes
  (label, data.add label (.bytes bytes))

/-- The low byte of the size, then the eight bytes of the double, the lowest first. -/
def floatKey (value : Double) (size : Int) : List UInt8 :=
  UInt8.ofNat (size % 256).toNat ::
    (List.range 8).map fun index => (value.bits >>> (8 * UInt64.ofNat index)).toUInt8

def addFloat (data : DataSection) (value : Double) (size : Int) : String × DataSection :=
  let label := hashLabel "flt" (floatKey value size)
  (label, data.add label (.scalar (.ofDouble value size)))

/-- The fields of a struct that have a value, which for a field named twice is the last one. There
is no result when one of these values is not constant. -/
def constantFields? (fields : List Ty.Field) (values : List (String × Expr)) :
    Option (List (String × Data.Directive)) :=
  let given := fields.filterMap fun field =>
    (values.reverse.lookup field.name).map fun value => (field, value)
  given.mapM fun (field, value) => do
    let constant ← value.constant?
    let directive ← Data.Directive.ofConstant? field.type constant
    return (field.name, directive)

/-- The label of a struct literal, when all its values are constants. -/
def addStruct? (data : DataSection) (ty : Ty) (values : List (String × Expr)) :
    Option (String × DataSection) :=
  (constantFields? ty.fields values).map fun fields =>
    let item := Data.Item.record ty.name fields
    let label := hashLabel "lit" (utf8 item.text)
    (label, data.add label item)

/-- Adds the entries of another section that are not there yet. -/
def merge (data other : DataSection) : DataSection :=
  other.entries.foldl (fun data entry => data.add entry.label entry.item) data

def text (data : DataSection) : String := String.join (data.entries.map Data.Entry.text)

end DataSection
end Nasm64
