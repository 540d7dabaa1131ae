import Nasm64.Proofs.Layout.Slot

/-! Sizes of types in exact arithmetic, and the places of the fields of a struct. Words agree with it
as long as the size does not exceed them. -/
namespace Nasm64

open Word

namespace Word

/-- A step that divides `2 ^ 63` leaves room for the padding below it. -/
theorem add_le_of_roundUp (positive : 0 < step) (divides : step ∣ 2 ^ 63)
    (fits : roundUp v step < 2 ^ 63) : v + step ≤ 2 ^ 63 := by
  have above := le_roundUp v positive
  have rest : step ∣ 2 ^ 63 - roundUp v step := Int.dvd_sub divides (dvd_roundUp v step)
  have := Int.le_of_dvd (by omega) rest
  omega

theorem isLeast_roundUp (v : Int) (positive : 0 < step) :
    IsLeast {place | v ≤ place ∧ step ∣ place} (roundUp v step) := by
  refine ⟨⟨le_roundUp v positive, dvd_roundUp v step⟩, ?_⟩
  rintro place ⟨above, factor, rfl⟩
  have quotient : (v + (step - 1)) / step < factor + 1 := by
    refine Int.ediv_lt_of_lt_mul positive ?_
    rw [Int.add_mul, Int.one_mul, Int.mul_comm factor step]
    omega
  rw [roundUp, Int.mul_comm step factor]
  exact Int.mul_le_mul_of_nonneg_right (Int.le_of_lt_add_one quotient) positive.le

end Word

namespace Ty

mutual

/-- The size of a type in unbounded arithmetic. -/
def exactSize : Ty → Int
  | prim primitive => primitive.bytes
  | void => 0
  | pointer _ => 8
  | array length element => element.exactSize * length
  | struct _ fields => Word.roundUp (exactExtent 0 fields) (alignFields fields).toInt
termination_by structural ty => ty

def exactExtent (start : Int) : List (String × Ty) → Int
  | [] => start
  | (_, ty) :: fields => exactExtent (Word.roundUp start ty.align.toInt + ty.exactSize) fields
termination_by structural fields => fields

end

def Alignment (step : Int64) : Prop := step = 1 ∨ step = 2 ∨ step = 4 ∨ step = 8

namespace Alignment

variable {step other : Int64}

theorem toInt (aligned : Alignment step) :
    step.toInt = 1 ∨ step.toInt = 2 ∨ step.toInt = 4 ∨ step.toInt = 8 := by
  rcases aligned with rfl | rfl | rfl | rfl <;> decide

theorem positive (aligned : Alignment step) : 0 < step.toInt := by
  have := aligned.toInt
  omega

theorem divides (aligned : Alignment step) : step.toInt ∣ 2 ^ 63 := by
  rcases aligned with rfl | rfl | rfl | rfl <;> decide

theorem max (first : Alignment step) (second : Alignment other) : Alignment (Max.max step other) := by
  rcases first with rfl | rfl | rfl | rfl <;> rcases second with rfl | rfl | rfl | rfl <;>
    simp only [Alignment] <;> decide

/-- Words are rounded up to an alignment without an error below `2 ^ 63`. -/
theorem toInt_alignUp (aligned : Alignment step) (natural : 0 ≤ v.toInt)
    (fits : roundUp v.toInt step.toInt < 2 ^ 63) :
    (alignUp v step).toInt = roundUp v.toInt step.toInt := by
  have same : Max.max step.toInt 1 = step.toInt := by
    have := aligned.positive
    omega
  have room := add_le_of_roundUp aligned.positive aligned.divides fits
  rw [Word.toInt_alignUp natural (by omega), same]

end Alignment

mutual

theorem align_alignment : ∀ ty : Ty, Alignment ty.align
  | prim primitive => by cases primitive <;> simp [align, Alignment, Primitive.bytes]
  | void => .inl rfl
  | pointer _ => .inr (.inr (.inr rfl))
  | array _ element => align_alignment element
  | struct _ fields => alignFields_alignment fields
termination_by structural ty => ty

theorem alignFields_alignment : ∀ fields : List (String × Ty), Alignment (alignFields fields)
  | [] => .inl rfl
  | (_, ty) :: fields => (align_alignment ty).max (alignFields_alignment fields)
termination_by structural fields => fields

end

mutual

theorem exactSize_nonneg : ∀ ty : Ty, 0 ≤ ty.exactSize
  | prim _ => Int.natCast_nonneg _
  | void => Int.le_refl 0
  | pointer _ => Int.natCast_nonneg 8
  | array _ element => Int.mul_nonneg (exactSize_nonneg element) (Int.natCast_nonneg _)
  | struct _ fields =>
    (le_exactExtent 0 fields).trans (le_roundUp _ (alignFields_alignment fields).positive)
termination_by structural ty => ty

theorem le_exactExtent : ∀ (start : Int) (fields : List (String × Ty)), start ≤ exactExtent start fields
  | start, [] => Int.le_refl start
  | start, (_, ty) :: fields => by
    have first := le_roundUp start (align_alignment ty).positive
    have own := exactSize_nonneg ty
    have rest := le_exactExtent (roundUp start ty.align.toInt + ty.exactSize) fields
    simp only [exactExtent]
    omega
termination_by structural _ fields => fields

end

theorem toInt_placed {start : Int64} {ty : Ty}
    (sized : ty.exactSize < 2 ^ 63 → ty.size.toInt = ty.exactSize) (natural : 0 ≤ start.toInt)
    (fits : roundUp start.toInt ty.align.toInt + ty.exactSize < 2 ^ 63) :
    (alignUp start ty.align).toInt = roundUp start.toInt ty.align.toInt ∧
      (alignUp start ty.align + ty.size).toInt =
        roundUp start.toInt ty.align.toInt + ty.exactSize := by
  have aligned := align_alignment ty
  have above := le_roundUp start.toInt aligned.positive
  have own := exactSize_nonneg ty
  have offset := aligned.toInt_alignUp natural (by omega)
  have width := sized (by omega)
  refine ⟨offset, ?_⟩
  rw [toInt_add (by omega) (by omega), offset, width]

mutual

/-- Sizes below `2 ^ 63` are exact. -/
theorem toInt_size : ∀ ty : Ty, ty.exactSize < 2 ^ 63 → ty.size.toInt = ty.exactSize
  | prim primitive => fun _ => by cases primitive <;> rfl
  | void => fun _ => rfl
  | pointer _ => fun _ => rfl
  | array length element => fun fits => by
    have natural := exactSize_nonneg (array length element)
    simp only [exactSize] at fits natural
    have product : (element.size * Int64.ofNat length).toInt =
        (element.size.toInt * length).bmod (2 ^ 64) := by
      rw [Int64.toInt_mul, Int64.toInt_ofNat', Int.mul_bmod_bmod]
      rfl
    rw [size, exactSize, product]
    -- The elements of an array without any may be too large.
    cases length with
    | zero => simp
    | succ length =>
      have whole : element.exactSize ≤ element.exactSize * ((length + 1 : Nat) : Int) :=
        le_mul_of_one_le_right (exactSize_nonneg element) (by omega)
      rw [toInt_size element (by omega), bmod_of_bounds (by omega) fits]
  | struct _ fields => fun fits => by
    have aligned := alignFields_alignment fields
    have above := le_roundUp (exactExtent 0 fields) aligned.positive
    have natural := le_exactExtent 0 fields
    rw [exactSize] at fits
    have extent : (extent 0 fields).toInt = exactExtent 0 fields :=
      toInt_extent 0 fields (Int.le_refl 0) (Int.lt_of_le_of_lt above fits)
    rw [size, exactSize, aligned.toInt_alignUp (by omega) (by rwa [extent]), extent]
termination_by structural ty => ty

theorem toInt_extent : ∀ (start : Int64) (fields : List (String × Ty)), 0 ≤ start.toInt →
    exactExtent start.toInt fields < 2 ^ 63 → (extent start fields).toInt = exactExtent start.toInt fields
  | _, [] => fun _ _ => rfl
  | start, (_, ty) :: fields => fun natural fits => by
    have above := le_roundUp start.toInt (align_alignment ty).positive
    have own := exactSize_nonneg ty
    have rest := le_exactExtent (roundUp start.toInt ty.align.toInt + ty.exactSize) fields
    rw [exactExtent] at fits
    obtain ⟨_, next⟩ := toInt_placed (toInt_size ty) natural (by omega)
    rw [extent, exactExtent, ← next]
    exact toInt_extent _ fields (by omega) (by rwa [next])
termination_by structural _ fields => fields

end

def Field.Covers (field : Field) (byte : Int) : Prop :=
  field.offset.toInt ≤ byte ∧ byte < field.offset.toInt + field.type.size.toInt

instance (field : Field) (byte : Int) : Decidable (field.Covers byte) :=
  inferInstanceAs (Decidable (_ ∧ _))

inductive Spread : Int → List Field → Int → Prop
  | nil {start limit : Int} (within : start ≤ limit) : Spread start [] limit
  | cons {start limit : Int} {field : Field} {rest : List Field} (after : start ≤ field.offset.toInt)
    (natural : 0 ≤ field.type.size.toInt)
    (others : Spread (field.offset.toInt + field.type.size.toInt) rest limit) :
    Spread start (field :: rest) limit

/-- Fields one after the other, each at the first multiple of its alignment, from a place to the end of
the last one. -/
inductive Packed : Int → List Field → Int → Prop
  | nil {start : Int} : Packed start [] start
  | cons {start stop : Int} {field : Field} {rest : List Field}
    (least : IsLeast {place | start ≤ place ∧ field.type.align.toInt ∣ place} field.offset.toInt)
    (natural : 0 ≤ field.type.size.toInt)
    (others : Packed (field.offset.toInt + field.type.size.toInt) rest stop) :
    Packed start (field :: rest) stop

theorem placeFields_packed (start : Int64) (fields : List (String × Ty)) (natural : 0 ≤ start.toInt)
    (fits : exactExtent start.toInt fields < 2 ^ 63) :
    Packed start.toInt (placeFields start fields) (exactExtent start.toInt fields) := by
  induction fields generalizing start with
  | nil => exact .nil
  | cons field fields ih =>
    obtain ⟨name, ty⟩ := field
    have positive := (align_alignment ty).positive
    have above := le_roundUp start.toInt positive
    have own := exactSize_nonneg ty
    have rest := le_exactExtent (roundUp start.toInt ty.align.toInt + ty.exactSize) fields
    rw [exactExtent] at fits ⊢
    obtain ⟨offset, next⟩ := toInt_placed (toInt_size ty) natural (by omega)
    have size := toInt_size ty (by omega)
    rw [← next] at fits ⊢
    refine .cons ?_ (by simpa only [size] using own) ?_
    · simpa only [offset] using isLeast_roundUp start.toInt positive
    · have sum : (alignUp start ty.align + ty.size).toInt =
          (alignUp start ty.align).toInt + ty.size.toInt := by rw [next, offset, size]
      simpa only [← sum] using ih _ (by omega) fits

theorem Packed.spread {fields : List Field} (packed : Packed start fields stop) : Spread start fields stop := by
  induction packed with
  | nil => exact .nil (Int.le_refl _)
  | cons least natural _ ih => exact .cons least.1.1 natural ih

namespace Spread

variable {start limit : Int} {fields : List Field} {field other : Field}

section

variable (spread : Spread start fields limit)

include spread

theorem widen (wider : limit ≤ more) : Spread start fields more := by
  induction spread with
  | nil within => exact .nil (within.trans wider)
  | cons after natural _ ih => exact .cons after natural (ih wider)

theorem le : start ≤ limit := by
  induction spread with
  | nil within => exact within
  | cons after natural _ ih => omega

theorem bounds (mem : field ∈ fields) :
    start ≤ field.offset.toInt ∧ field.offset.toInt + field.type.size.toInt ≤ limit := by
  induction spread with
  | nil => cases mem
  | cons after natural others ih =>
    rcases List.mem_cons.mp mem with rfl | mem
    · exact ⟨after, others.le⟩
    · have := ih mem
      omega

theorem apart :
    fields.Pairwise fun field other => field.offset.toInt + field.type.size.toInt ≤
      other.offset.toInt := by
  induction spread with
  | nil => exact .nil
  | cons _ _ others ih => exact .cons (fun _ listed => (others.bounds listed).1) ih

theorem unique (first : field ∈ fields) (second : other ∈ fields) (covers : field.Covers byte)
    (alike : other.Covers byte) : field = other := by
  induction spread with
  | nil => cases first
  | cons after natural others ih =>
    unfold Field.Covers at covers alike
    rcases List.mem_cons.mp first with rfl | here <;> rcases List.mem_cons.mp second with rfl | there
    · rfl
    · have := others.bounds there
      omega
    · have := others.bounds here
      omega
    · exact ih here there

end

end Spread

/-- The fields of a type lie within it, one after the other. -/
theorem fields_spread (ty : Ty) (fits : ty.exactSize < 2 ^ 63) :
    Spread 0 ty.fields ty.size.toInt := by
  have natural := exactSize_nonneg ty
  rw [toInt_size ty fits]
  cases ty with
  | struct name fields =>
    have above := le_roundUp (exactExtent 0 fields) (alignFields_alignment fields).positive
    rw [exactSize] at fits ⊢
    have spread : Spread 0 (placeFields 0 fields) (exactExtent 0 fields) :=
      (placeFields_packed 0 fields (Int.le_refl 0) (Int.lt_of_le_of_lt above fits)).spread
    exact spread.widen above
  | _ => exact .nil natural

end Ty
end Nasm64
