import Nasm64.Proofs.Layout.Type
import Nasm64.Ty.Reading

/-! The layout of types. Main statement: as long as sizes stay below `2 ^ 63`, structs are laid out as in
C, and whatever a type consists of is aligned, at any depth. -/
namespace Nasm64.Ty

namespace Alignment

variable {step other : Int64}

theorem dvd_of_le (first : Alignment step) (second : Alignment other)
    (le : step.toInt ≤ other.toInt) : step.toInt ∣ other.toInt := by
  revert le
  rcases first with rfl | rfl | rfl | rfl <;> rcases second with rfl | rfl | rfl | rfl <;> decide

theorem toInt_max (first : Alignment step) (second : Alignment other) :
    (Max.max step other).toInt = Max.max step.toInt other.toInt := by
  rcases first with rfl | rfl | rfl | rfl <;> rcases second with rfl | rfl | rfl | rfl <;> decide

end Alignment

theorem align_dvd_exactSize (ty : Ty) : ty.align.toInt ∣ ty.exactSize := by
  cases ty with
  | prim primitive => cases primitive <;> decide
  | void => decide
  | pointer => exact Int.dvd_refl 8
  | array _ element => exact Int.dvd_mul_of_dvd_left (align_dvd_exactSize element)
  | struct => exact Word.dvd_roundUp _ _

theorem alignFields_greatest (fields : List (String × Ty)) :
    IsGreatest (insert 1 {step | ∃ field ∈ fields, field.2.align.toInt = step})
      (alignFields fields).toInt := by
  induction fields with
  | nil => simp [alignFields, IsGreatest, upperBounds]
  | cons field fields ih =>
    obtain ⟨name, ty⟩ := field
    obtain ⟨reached, bound⟩ := ih
    have own := align_alignment ty
    rw [alignFields, own.toInt_max (alignFields_alignment fields)]
    constructor
    · rcases max_choice ty.align.toInt (alignFields fields).toInt with same | same <;> rw [same]
      · exact .inr ⟨_, List.mem_cons_self, rfl⟩
      · exact reached.imp_right fun ⟨field, listed, same⟩ => ⟨field, List.mem_cons_of_mem _ listed, same⟩
    · rintro step (one | ⟨field, listed, same⟩)
      · exact le_max_of_le_right (bound (.inl one))
      · rcases List.mem_cons.mp listed with rfl | listed
        · exact le_max_of_le_left same.ge
        · exact le_max_of_le_right (bound (.inr ⟨field, listed, same⟩))

theorem Packed.dvd_offset {fields : List Field} (packed : Packed start fields stop)
    (listed : field ∈ fields) : field.type.align.toInt ∣ field.offset.toInt := by
  induction packed with
  | nil => cases listed
  | cons least _ _ ih =>
    rcases List.mem_cons.mp listed with rfl | listed
    · exact least.1.2
    · exact ih listed

theorem exactSize_le_exactExtent {fields : List (String × Ty)} (natural : 0 ≤ start)
    (listed : field ∈ fields) : field.2.exactSize ≤ exactExtent start fields := by
  induction fields generalizing start with
  | nil => cases listed
  | cons first fields ih =>
    have above := Word.le_roundUp start (align_alignment first.2).positive
    have own := exactSize_nonneg first.2
    have rest := le_exactExtent (Word.roundUp start first.2.align.toInt + first.2.exactSize) fields
    rw [exactExtent]
    rcases List.mem_cons.mp listed with rfl | listed
    · omega
    · exact ih (by omega) listed

theorem placeFields_declared (start : Int64) (fields : List (String × Ty)) :
    (placeFields start fields).map (fun field => (field.name, field.type)) = fields := by
  induction fields generalizing start with
  | nil => rfl
  | cons field fields ih => simp [placeFields, ih]

structure LaidOut (ty : Ty) : Prop where
  alignment : ty.align.toInt = 1 ∨ ty.align.toInt = 2 ∨ ty.align.toInt = 4 ∨ ty.align.toInt = 8
  multiple : ty.align.toInt ∣ ty.size.toInt
  /-- Each field of a struct is at the first multiple of its alignment behind the field before. -/
  packed : ∀ name fields, ty = struct name fields →
    ty.fields.map (fun field => (field.name, field.type)) = fields ∧
    IsGreatest (insert 1 {step | ∃ field ∈ fields, field.2.align.toInt = step}) ty.align.toInt ∧
    ∃ stop, Packed 0 ty.fields stop ∧
      IsLeast {size | stop ≤ size ∧ ty.align.toInt ∣ size} ty.size.toInt
  apart : ty.fields.Pairwise fun field other =>
    field.offset.toInt + field.type.size.toInt ≤ other.offset.toInt
  within : ∀ field ∈ ty.fields,
    0 ≤ field.offset.toInt ∧ field.offset.toInt + field.type.size.toInt ≤ ty.size.toInt

theorem laidOut (ty : Ty) (fits : ty.exactSize < 2 ^ 63) : ty.LaidOut where
  alignment := (align_alignment ty).toInt
  multiple := by
    rw [toInt_size ty fits]
    exact align_dvd_exactSize ty
  packed := by
    rintro name fields rfl
    have positive := (alignFields_alignment fields).positive
    have whole := toInt_size _ fits
    rw [exactSize] at fits whole
    have above := Word.le_roundUp (exactExtent 0 fields) positive
    refine ⟨placeFields_declared 0 fields, alignFields_greatest fields, exactExtent 0 fields,
      placeFields_packed 0 fields (Int.le_refl 0) (Int.lt_of_le_of_lt above fits), ?_⟩
    rw [whole]
    exact Word.isLeast_roundUp _ positive
  apart := (fields_spread ty fits).apart
  within _ listed := (fields_spread ty fits).bounds listed

/-- What a type consists of, with its place: the type itself, the fields of structs and the elements of
arrays, and what these consist of. -/
inductive Part : Ty → Int → Ty → Prop
  | whole (ty : Ty) : Part ty 0 ty
  | field {ty inner : Ty} {field : Field} {place : Int} (listed : field ∈ ty.fields)
    (part : Part field.type place inner) : Part ty (field.offset.toInt + place) inner
  | element {element inner : Ty} {length index : Nat} {place : Int} (inside : index < length)
    (part : Part element place inner) :
    Part (.array length element) (index * element.size.toInt + place) inner

theorem Part.aligned (part : Part ty place nested) (fits : ty.exactSize < 2 ^ 63) :
    nested.exactSize < 2 ^ 63 ∧ nested.align.toInt ≤ ty.align.toInt ∧ nested.align.toInt ∣ place ∧
      0 ≤ place ∧ place + nested.size.toInt ≤ ty.size.toInt := by
  induction part with
  | whole ty => exact ⟨fits, Int.le_refl _, Int.dvd_zero _, Int.le_refl _, by omega⟩
  | @field ty nested field place listed _ ih =>
    have bounds := (fields_spread ty fits).bounds listed
    cases ty with
    | struct name fields =>
      obtain ⟨declared, greatest, stop, packed, _⟩ := (laidOut _ fits).packed name fields rfl
      have known : (field.name, field.type) ∈ fields := by
        rw [← declared]
        exact List.mem_map_of_mem listed
      have le : field.type.align.toInt ≤ (struct name fields).align.toInt :=
        greatest.2 (.inr ⟨_, known, rfl⟩)
      have above := Word.le_roundUp (exactExtent 0 fields) (alignFields_alignment fields).positive
      have own := exactSize_le_exactExtent (Int.le_refl 0) known
      rw [exactSize] at fits
      obtain ⟨small, lower, aligned, first, last⟩ := ih (Int.lt_of_le_of_lt (own.trans above) fits)
      have step := (align_alignment nested).dvd_of_le (align_alignment field.type) lower
      exact ⟨small, lower.trans le, Int.dvd_add (step.trans (packed.dvd_offset listed)) aligned,
        by omega, by omega⟩
    | prim | void | pointer | array => cases listed
  | @element element nested length idx place inside _ ih =>
    have natural := exactSize_nonneg element
    have whole := toInt_size _ fits
    rw [exactSize] at fits whole
    have one : element.exactSize * 1 ≤ element.exactSize * length :=
      Int.mul_le_mul_of_nonneg_left (by omega) natural
    have upTo : element.exactSize * (idx + 1) ≤ element.exactSize * length :=
      Int.mul_le_mul_of_nonneg_left (by omega) natural
    have before : 0 ≤ idx * element.exactSize := Int.mul_nonneg (by omega) natural
    obtain ⟨small, lower, aligned, first, last⟩ := ih (by omega)
    have step := (align_alignment nested).dvd_of_le (align_alignment element) lower
    have size := toInt_size element (by omega)
    rw [Int.mul_add, Int.mul_one, Int.mul_comm] at upTo
    rw [size] at last ⊢
    rw [whole]
    refine ⟨small, lower, Int.dvd_add ?_ aligned, by omega, by omega⟩
    exact Int.dvd_mul_of_dvd_right (step.trans (align_dvd_exactSize element))

/-- Types of less than `2 ^ 63` bytes are laid out as in C, with everything in them. -/
theorem types_laid_out (ty : Ty) (fits : ty.exactSize < 2 ^ 63) (place : Int) (inner : Ty)
    (part : Part ty place inner) : inner.LaidOut ∧ inner.align.toInt ∣ place ∧ 0 ≤ place ∧
      place + inner.size.toInt ≤ ty.size.toInt := by
  obtain ⟨small, _, aligned⟩ := part.aligned fits
  exact ⟨laidOut inner small, aligned⟩

/-- A field of the last of three structs behind a byte. -/
theorem types_laid_out_nested :
    let pair := struct "Pair" [("tag", .prim .i16), ("amount", .prim .f64)]
    let table := struct "Table" [("kind", .prim .u8), ("rows", array 3 pair)]
    table.exactSize < 2 ^ 63 ∧ Part table 48 (.prim .f64) ∧ (prim .f64).align.toInt ∣ 48 ∧
      48 + (prim .f64).size.toInt ≤ table.size.toInt := by
  intro pair table
  have fits : table.exactSize < 2 ^ 63 := by decide
  have amount : ⟨"amount", .prim .f64, 8⟩ ∈ pair.fields := .tail _ (.head _)
  have start : Word.alignUp (Word.alignUp 0 (prim .u8).align + (prim .u8).size) pair.align = 8 := by
    decide
  have rows : ⟨"rows", array 3 pair, 8⟩ ∈ table.fields := start ▸ .tail _ (.head _)
  have inner : Part pair 8 (.prim .f64) := .field amount (.whole _)
  have row : Part (array 3 pair) 40 (.prim .f64) := .element (by decide : 2 < 3) inner
  have part : Part table 48 (.prim .f64) := .field rows row
  obtain ⟨_, aligned, _, within⟩ := types_laid_out table fits 48 _ part
  exact ⟨fits, part, aligned, within⟩

/-- Sizes are exact as long as they stay below `2 ^ 63`, and wrap around from there on. -/
theorem sizes_exact_below_limit (ty : Ty) :
    (ty.size.toInt = ty.exactSize ↔ ty.exactSize < 2 ^ 63) ∧
    (ty.exactSize < 2 ^ 63 → 0 ≤ ty.size.toInt ∧ ∀ length element, 0 < length →
      ty = array length element → element.size.toInt ≤ ty.size.toInt) := by
  have upper := ty.size.toInt_lt
  refine ⟨⟨fun same => by omega, toInt_size ty⟩, fun fits => ⟨?_, ?_⟩⟩
  · rw [toInt_size ty fits]
    exact exactSize_nonneg ty
  · rintro length element positive rfl
    have first := (Part.element positive (.whole element)).aligned fits
    omega

/-- Lengths are accepted for which the size is negative, or less than that of one element. -/
theorem array_size_wraps :
    ∃ negative empty : Ty, read [] "[1152921504606846976]i64" = .ok negative ∧
      negative.exactSize = 2 ^ 63 ∧ negative.size.toInt = -2 ^ 63 ∧
      read [] "[2305843009213693952]i64" = .ok empty ∧
      empty.exactSize = 2 ^ 64 ∧ empty.size.toInt = 0 := by
  refine ⟨array 1152921504606846976 (.prim .i64), array 2305843009213693952 (.prim .i64), ?_, ?_⟩
  · with_unfolding_all rfl
  · exact ⟨by decide, by decide, by with_unfolding_all rfl, by decide, by decide⟩

end Nasm64.Ty
