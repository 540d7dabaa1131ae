import Nasm64.Ty.Layout

/-! Struct layouts as reservations, with the gaps between fields spelled out. -/
namespace Nasm64.Data

structure Reservation where
  field : Option String
  directive : String
  count : Int64
deriving DecidableEq, Repr

def Reservation.text (reservation : Reservation) : String :=
  let name := match reservation.field with
    | some name => "." ++ name ++ ": "
    | none => ""
  "    " ++ name ++ reservation.directive ++ " " ++ toString reservation.count ++ "\n"

def gap (bytes : Int64) : Reservation := ⟨none, "resb", bytes⟩

def reserveDirective (size : Int64) : String :=
  if size == 2 then "resw"
  else if size == 4 then "resd"
  else if size == 8 then "resq"
  else "resb"

/-- A scalar is one unit of its size, an array of scalars one for each element, and anything else
is counted in bytes. -/
def reserveField (field : Ty.Field) : Reservation :=
  match field.type with
  | .array length element =>
    if element.isScalar then
      ⟨some field.name, reserveDirective element.size, Int64.ofNat length⟩
    else ⟨some field.name, "resb", field.type.size⟩
  | ty =>
    if ty.isScalar then ⟨some field.name, reserveDirective ty.size, 1⟩
    else ⟨some field.name, "resb", ty.size⟩

/-- The fields from byte `start` on, then what is missing to the full size. -/
def reserveFrom (start size : Int64) : List Ty.Field → List Reservation
  | [] => if start < size then [gap (size - start)] else []
  | field :: fields =>
    let before := if start < field.offset then [gap (field.offset - start)] else []
    before ++ reserveField field :: reserveFrom (field.offset + field.type.size) size fields

def reservations (ty : Ty) : List Reservation := reserveFrom 0 ty.size ty.fields

def layoutText (ty : Ty) : String :=
  "struc " ++ ty.name ++ "\n" ++ String.join ((reservations ty).map Reservation.text) ++ "endstruc\n"

end Nasm64.Data
