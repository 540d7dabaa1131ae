import Nasm64.Data.Layout
import Nasm64.Proofs.Layout.Struct

/-! The directives that reserve room for a struct. Main statement: they define the name of each field at
the offset of the field, and end at the size of the struct. -/
namespace Nasm64

namespace Data

/-- The bytes that one unit of a directive takes. -/
def unit? (directive : String) : Option Int :=
  if directive = "resb" then some 1
  else if directive = "resw" then some 2
  else if directive = "resd" then some 4
  else if directive = "resq" then some 8
  else none

/-- Where names are defined by reservations from a place on, and the place behind them. -/
def assemble (place : Int) : List Reservation → Option (List (String × Int) × Int)
  | [] => some ([], place)
  | reservation :: rest => do
    let unit ← unit? reservation.directive
    let (names, stop) ← assemble (place + unit * reservation.count.toInt) rest
    return (reservation.field.toList.map (·, place) ++ names, stop)

variable {start stop size : Int64} {ty : Ty}

theorem assemble_gap (rest : List Reservation) (natural : 0 ≤ start.toInt)
    (le : start.toInt ≤ stop.toInt) :
    assemble start.toInt ((if start < stop then [gap (stop - start)] else []) ++ rest) =
      assemble stop.toInt rest := by
  have upper := stop.toInt_lt
  split
  · have bytes : (stop - start).toInt = stop.toInt - start.toInt := by
      rw [Int64.toInt_sub, Word.bmod_of_bounds (by omega) (by omega)]
    have place : start.toInt + 1 * (stop - start).toInt = stop.toInt := by omega
    have unit : unit? "resb" = some 1 := rfl
    simp only [List.singleton_append, assemble, gap, unit, Option.bind_eq_bind, Option.bind_some, place]
    cases assemble stop.toInt rest <;> rfl
  · next above =>
    have same : start.toInt = stop.toInt := by
      have := mt Int64.lt_iff_toInt_lt.mpr above
      omega
    rw [same]
    rfl

theorem unit?_reserveDirective (scalar : ty.isScalar = true) :
    unit? (reserveDirective ty.size) = some ty.exactSize ∧ 1 ≤ ty.exactSize := by
  cases ty with
  | prim primitive => cases primitive <;> decide
  | pointer => exact ⟨rfl, Int.le_add_of_nonneg_left (by decide : (0 : Int) ≤ 7)⟩
  | void | array | struct => cases scalar

theorem reserveField_spans (field : Ty.Field) (fits : field.type.exactSize < 2 ^ 63) :
    (reserveField field).field = some field.name ∧
      ∃ unit, unit? (reserveField field).directive = some unit ∧
      unit * (reserveField field).count.toInt = field.type.exactSize := by
  obtain ⟨name, ty, offset⟩ := field
  have inBytes : unit? "resb" = some 1 ∧ 1 * ty.size.toInt = ty.exactSize :=
    ⟨rfl, (Int.one_mul _).trans (Ty.toInt_size ty fits)⟩
  cases ty with
  | array length element =>
    simp only [reserveField]
    split
    · next scalar =>
      obtain ⟨unit, positive⟩ := unit?_reserveDirective scalar
      have count : (length : Int) ≤ element.exactSize * length :=
        le_mul_of_one_le_left (Int.natCast_nonneg _) positive
      simp only [Ty.exactSize] at fits
      refine ⟨rfl, _, unit, ?_⟩
      rw [Int64.toInt_ofNat_of_lt (by omega)]
      rfl
    · exact ⟨rfl, 1, inBytes⟩
  | prim primitive =>
    exact ⟨rfl, _, (unit?_reserveDirective (rfl : (Ty.prim primitive).isScalar = true)).1, Int.mul_one _⟩
  | pointer dst =>
    exact ⟨rfl, _, (unit?_reserveDirective (rfl : dst.pointer.isScalar = true)).1, Int.mul_one _⟩
  | void | struct => exact ⟨rfl, 1, inBytes⟩

theorem assemble_reserveFrom {fields : List Ty.Field} (natural : 0 ≤ start.toInt)
    (fits : ∀ field ∈ fields, field.type.exactSize < 2 ^ 63)
    (spread : Ty.Spread start.toInt fields size.toInt) :
    assemble start.toInt (reserveFrom start size fields) =
      some (fields.map fun field => (field.name, field.offset.toInt), size.toInt) := by
  induction fields generalizing start with
  | nil =>
    have whole := assemble_gap [] natural spread.le
    rw [List.append_nil] at whole
    exact whole
  | cons field rest ih =>
    cases spread with
    | cons after wide others =>
      have upper := size.toInt_lt
      have within := others.le
      have next : (field.offset + field.type.size).toInt =
          field.offset.toInt + field.type.size.toInt := Word.toInt_add (by omega) (by omega)
      have small := fits field List.mem_cons_self
      obtain ⟨label, unit, known, spans⟩ := reserveField_spans field small
      rw [← Ty.toInt_size _ small] at spans
      rw [reserveFrom, assemble_gap _ natural after, assemble, known, label]
      rw [← next] at others
      have following := ih (by omega) (fun other listed => fits other (List.mem_cons_of_mem _ listed)) others
      rw [next] at following
      simp only [Option.bind_eq_bind, Option.bind_some, spans, following]
      rfl

end Data

open Data

/-- Reservations and offsets agree on the fields of a struct, and on where it ends. -/
theorem reservations_place_fields (name : String) (fields : List (String × Ty))
    (fits : (Ty.struct name fields).exactSize < 2 ^ 63) :
    let ty := Ty.struct name fields
    assemble 0 (reservations ty) =
      some (ty.fields.map fun field => (field.name, field.offset.toInt), ty.size.toInt) :=
  assemble_reserveFrom (show 0 ≤ (0 : Int64).toInt by decide)
    (fun field listed => ((Ty.Part.field listed (.whole field.type)).aligned fits).1)
    (Ty.fields_spread _ fits)

/-- A gap in front of a struct, an array of words, a field without bytes and a gap at the end. -/
theorem reservations_place_fields_padded :
    let ty := Ty.struct "Table" [("kind", .prim .u8), ("head", .struct "Cell" [("next", .pointer .void)]),
      ("rows", .array 3 (.prim .i16)), ("mark", .void)]
    ty.exactSize < 2 ^ 63 ∧ assemble 0 (reservations ty) =
      some ([("kind", 0), ("head", 8), ("rows", 16), ("mark", 22)], 24) := by
  intro ty
  have fits : ty.exactSize < 2 ^ 63 := by decide
  exact ⟨fits, (reservations_place_fields _ _ fits).trans (by decide)⟩

end Nasm64
