import Nasm64.Text.Blank
import Nasm64.Text.Quoted
import Nasm64.Ty.Basic

/-! Types from their spelling: primitives, struct names, and any number of `*` and `[n]` in front. -/
namespace Nasm64.Ty

inductive ReadError where
  | empty
  | openLength (text : String)
  | badLength (text : String)
  | voidElement (text : String)
  | unknown (text : String)
deriving DecidableEq, Repr

def ReadError.message : ReadError → String
  | empty => "empty type"
  | openLength text => "malformed array type " ++ Text.quote text
  | badLength text => "malformed array length in " ++ Text.quote text
  | voidElement text => "array of void in " ++ Text.quote text
  | unknown text => "unknown type " ++ Text.quote text

abbrev Structs := List (String × Ty)

def named? (structs : Structs) (name : String) : Option Ty :=
  match Primitive.ofName? name with
  | some primitive => some (.prim primitive)
  | none => if name == "void" then some .void else structs.lookup name

def length? (digits : List Char) : Option Nat :=
  match Text.word? digits with
  | some length => if 0 < length then some length.toInt.toNat else none
  | none => none

/-- Reads a type, ignoring blanks around it and after every prefix. -/
def readChars (structs : Structs) (text : List Char) : Except ReadError Ty :=
  match _trimmed : Text.trim text with
  | [] => .error .empty
  | '*' :: rest => do return .pointer (← readChars structs rest)
  | '[' :: rest =>
    let whole := String.ofList ('[' :: rest)
    match _split : rest.dropWhile (· != ']') with
    | [] => .error (.openLength whole)
    | _ :: element =>
      match length? (rest.takeWhile (· != ']')) with
      | none => .error (.badLength whole)
      | some length => do
        let elementType ← readChars structs element
        if elementType.isVoid then .error (.voidElement whole)
        else return .array length elementType
  | name =>
    match named? structs (String.ofList name) with
    | some ty => .ok ty
    | none => .error (.unknown (String.ofList name))
termination_by text.length
decreasing_by
  · have shorter := Text.length_trim_le text
    simp only [_trimmed, List.length_cons] at shorter
    omega
  · have shorter := Text.length_trim_le text
    have suffix := (List.dropWhile_sublist (l := rest) (· != ']')).length_le
    simp only [_trimmed, _split, List.length_cons] at shorter suffix
    omega

def read (structs : Structs) (text : String) : Except ReadError Ty :=
  readChars structs text.toList

end Nasm64.Ty
