import Nasm64.Lower.Method
import Nasm64.Proofs.Layout.Power

/-! Slots of a frame in exact arithmetic: each is put below the ones before it and rounded to its
alignment. Words agree with it as long as nothing exceeds them. -/
namespace Nasm64

namespace Word

/-- The next multiple of a step, in unbounded arithmetic. -/
def roundUp (value step : Int) : Int := (value + (step - 1)) / step * step

theorem dvd_roundUp (v step : Int) : step ∣ roundUp v step := Int.dvd_mul_left _ _

theorem le_roundUp (v : Int) (positive : 0 < step) : v ≤ roundUp v step := by
  have split := Int.emod_add_ediv_mul (v + (step - 1)) step
  have small := Int.emod_lt_of_pos (v + (step - 1)) positive
  unfold roundUp
  omega

theorem step_le_roundUp (natural : 0 < v) (positive : 0 < step) : step ≤ roundUp v step :=
  Int.le_of_dvd (Int.lt_of_lt_of_le natural (le_roundUp v positive)) (dvd_roundUp v step)

/-- Words are rounded up exactly when the padding does not exceed them. -/
theorem toInt_alignUp (natural : 0 ≤ v.toInt) (fits : v.toInt + max step.toInt 1 ≤ 2 ^ 63) :
    (alignUp v step).toInt = roundUp v.toInt (max step.toInt 1) := by
  have one : (1 : Int64).toInt = 1 := rfl
  unfold alignUp
  split
  · rename_i small
    have bound : step.toInt ≤ 1 := Int64.le_iff_toInt_le.mp small
    rw [show max step.toInt 1 = 1 by omega]
    simp [roundUp]
  · rename_i large
    have bound : 1 < step.toInt := by
      have := mt Int64.le_iff_toInt_le.mpr large
      omega
    have padded : (v + step - 1).toInt = v.toInt + (step.toInt - 1) := by
      have low := step.le_toInt
      have high := step.toInt_lt
      have first := Int64.toInt_add v step
      rw [Int64.toInt_sub, first, one, Int.sub_eq_add_neg, Int.bmod_add_bmod,
        bmod_of_bounds (by omega) (by omega)]
      omega
    have bounds := tdiv_mul_bounds (v + step - 1).toInt (by omega : 0 < step.toInt)
    have quotient : ((v + step - 1) / step).toInt = (v + step - 1).toInt.tdiv step.toInt := by
      rw [Int64.toInt_div, bmod_of_bounds (by omega) (by omega)]
    rw [Int64.toInt_mul, quotient, bmod_of_bounds (by omega) (by omega), padded,
      Int.tdiv_eq_ediv_of_nonneg (by omega), show max step.toInt 1 = step.toInt by omega]
    rfl

end Word

namespace Lower

/-- The size and the alignment that a slot is asked for with. -/
structure Need where
  size : Int64
  align : Int64
deriving DecidableEq, Repr

/-- A slot that starts `offset` bytes below the frame pointer. -/
structure FrameSlot extends Need where
  offset : Int64
deriving DecidableEq, Repr

namespace Need

def ofType (ty : Ty) : Need := ⟨ty.size, ty.align⟩

def bytes (need : Need) : Int := max need.size.toInt 1

def step (need : Need) : Int := max need.align.toInt 1

/-- How far below the frame pointer the slot starts when the ones before it end at `start`. -/
def place (need : Need) (start : Int) : Int := Word.roundUp (start + need.bytes) need.step

/-- How far the slots of some needs reach below the frame pointer, paddings included. -/
def extent (start : Int) (needs : List Need) : Int := needs.foldl (fun start need => need.place start) start

theorem bytes_pos (need : Need) : 0 < need.bytes := by
  unfold bytes
  omega

theorem step_pos (need : Need) : 0 < need.step := by
  unfold step
  omega

theorem le_place (need : Need) (start : Int) : start + need.bytes ≤ need.place start :=
  Word.le_roundUp _ need.step_pos

theorem le_extent (start : Int) (needs : List Need) : start ≤ extent start needs := by
  induction needs generalizing start with
  | nil => exact Int.le_refl _
  | cons need rest ih =>
    have here := need.le_place start
    have positive := need.bytes_pos
    have there : need.place start ≤ extent start (need :: rest) := ih (need.place start)
    omega

theorem extent_append (start : Int) (first second : List Need) :
    extent start (first ++ second) = extent (extent start first) second := List.foldl_append

end Need

variable {frame next : Frame} {size align offset : Int64}

/-- A frame puts a slot where exact arithmetic does. -/
theorem Frame.reserve_place (reserved : frame.reserve size align = (offset, next))
    (natural : 0 ≤ frame.position.toInt)
    (fits : (Need.mk size align).place frame.position.toInt ≤ 2 ^ 62) :
    offset.toInt = (Need.mk size align).place frame.position.toInt ∧ next.position = offset := by
  simp only [Frame.reserve, Prod.mk.injEq] at reserved
  obtain ⟨rfl, rfl⟩ := reserved
  refine ⟨?_, rfl⟩
  have one : (1 : Int64).toInt = 1 := rfl
  have bytes := (Need.mk size align).bytes_pos
  have least := (Need.mk size align).le_place frame.position.toInt
  have stepped : (Need.mk size align).step ≤ (Need.mk size align).place frame.position.toInt :=
    Word.step_le_roundUp (by omega) (Need.mk size align).step_pos
  simp only [Need.place, Need.bytes, Need.step] at *
  have sum : (frame.position + max size 1).toInt = frame.position.toInt + max size.toInt 1 := by
    rw [Word.toInt_add, Word.toInt_max, one] <;> rw [Word.toInt_max, one] <;> omega
  have aligned : max (max align 1).toInt 1 = max align.toInt 1 := by
    rw [Word.toInt_max, one]
    omega
  rw [Word.toInt_alignUp (by omega) (by omega), sum, aligned]

namespace FrameSlot

/-- Whether a byte, counted from the frame pointer, belongs to the slot. -/
def covers (slot : FrameSlot) (byte : Int) : Prop :=
  -slot.offset.toInt ≤ byte ∧ byte < -slot.offset.toInt + slot.bytes

def Disjoint (first second : FrameSlot) : Prop := ∀ byte, ¬ (first.covers byte ∧ second.covers byte)

/-- The slots stand one below the other where exact arithmetic puts them. -/
def Laid (start : Int) : List FrameSlot → Prop
  | [] => True
  | slot :: rest => slot.offset.toInt = slot.place start ∧ Laid (slot.place start) rest

variable {start : Int} {slots more : List FrameSlot} {slot : FrameSlot}

theorem Laid.append (first : Laid start slots)
    (second : Laid (Need.extent start (slots.map (·.toNeed))) more) : Laid start (slots ++ more) := by
  induction slots generalizing start with
  | nil => exact second
  | cons slot rest ih => exact ⟨first.1, ih first.2 second⟩

/-- Every slot is below the start, and above the end. -/
theorem Laid.bounds (laid : Laid start slots) (mem : slot ∈ slots) : start + slot.bytes ≤
    slot.offset.toInt ∧ slot.offset.toInt ≤ Need.extent start (slots.map (·.toNeed)) := by
  induction slots generalizing start with
  | nil => cases mem
  | cons first rest ih =>
    have least := first.le_place start
    have positive := first.bytes_pos
    rcases List.mem_cons.mp mem with rfl | later
    · have reached := Need.le_extent (slot.place start) (rest.map (·.toNeed))
      exact ⟨by rw [laid.1]; exact least, by rw [laid.1]; exact reached⟩
    · obtain ⟨low, high⟩ := ih laid.2 later
      exact ⟨by omega, high⟩

theorem Laid.aligned (laid : Laid start slots) (mem : slot ∈ slots) :
    slot.step ∣ slot.offset.toInt := by
  induction slots generalizing start with
  | nil => cases mem
  | cons first rest ih =>
    rcases List.mem_cons.mp mem with rfl | later
    · rw [laid.1]
      exact Word.dvd_roundUp _ _
    · exact ih laid.2 later

theorem Laid.pairwise (laid : Laid start slots) : slots.Pairwise Disjoint := by
  induction slots generalizing start with
  | nil => exact .nil
  | cons first rest ih =>
    refine .cons (fun later mem byte both => ?_) (ih laid.2)
    have below := (laid.2.bounds mem).1
    have here := laid.1
    simp only [covers] at both
    omega

end FrameSlot

/-- The frame has room for what is asked for, and is aligned. -/
theorem frameSize?_bounds (found : frameSize? pos shadow alignment = some frameSize)
    (positive : 0 < alignment.toInt) (natural : 0 ≤ pos.toInt) (shadowed : 0 ≤ shadow.toInt)
    (small : pos.toInt + shadow.toInt < 2 ^ 62)
    (fits : Word.leastPower (pos.toInt + shadow.toInt) + alignment.toInt ≤ 2 ^ 63) :
    pos.toInt + shadow.toInt ≤ frameSize.toInt ∧ alignment.toInt ∣ frameSize.toInt := by
  simp only [frameSize?, Option.map_eq_some_iff] at found
  obtain ⟨power, least, rfl⟩ := found
  have sum : (pos + shadow).toInt = pos.toInt + shadow.toInt :=
    Word.toInt_add (by omega) (by omega)
  obtain ⟨low, high⟩ := Word.nextPowerOfTwo?_least least
  rw [sum] at low high
  refine ⟨?_, Word.dvd_alignUp _ positive⟩
  rw [Word.toInt_alignUp (by omega) (by omega)]
  have reached := Word.le_roundUp power.toInt (by omega : 0 < max alignment.toInt 1)
  omega

/-- Only a frame that exceeds `2 ^ 62` has no size. -/
theorem lt_of_frameSize?_eq_none {pos shadow : Int64}
    (none : frameSize? pos shadow alignment = none) (natural : 0 ≤ pos.toInt) :
    2 ^ 62 < pos.toInt + max shadow.toInt 0 := by
  have large := Word.endless_iff.mp (Word.nextPowerOfTwo?_eq_none_iff.mp (Option.map_eq_none_iff.mp none))
  by_contra small
  have low := shadow.le_toInt
  rw [Word.toInt_add (by omega) (by omega)] at large
  omega

end Lower
end Nasm64
