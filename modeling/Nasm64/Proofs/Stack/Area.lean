import Mathlib.Algebra.Order.Ring.Int
import Nasm64.Proofs.Emission.Bracket

/-! Argument areas, as long as the stack pointer stays within the words. -/
namespace Nasm64

namespace Word

variable {left right : Int64}

theorem bmod_of_bounds (low : -2 ^ 63 ≤ value) (high : value < 2 ^ 63) :
    value.bmod (2 ^ 64) = value := Int.bmod_eq_of_le (by omega) (by omega)

theorem toInt_add (low : -2 ^ 63 ≤ left.toInt + right.toInt)
    (high : left.toInt + right.toInt < 2 ^ 63) : (left + right).toInt = left.toInt + right.toInt := by
  rw [Int64.toInt_add, bmod_of_bounds low high]

theorem toInt_sub (low : -2 ^ 63 ≤ left.toInt - right.toInt)
    (high : left.toInt - right.toInt < 2 ^ 63) : (left - right).toInt = left.toInt - right.toInt := by
  rw [Int64.toInt_sub, bmod_of_bounds low high]

theorem toNat_toBitVec {v : Int64} (natural : 0 ≤ v.toInt) :
    (v.toBitVec.toNat : Int) = v.toInt := by
  have signed : v.toInt = v.toBitVec.toInt := rfl
  rw [signed, BitVec.toInt_eq_toNat_cond] at natural ⊢
  have := v.toBitVec.isLt
  omega

theorem toInt_max (left right : Int64) : (max left right).toInt = max left.toInt right.toInt := by
  have order : left ≤ right ↔ left.toInt ≤ right.toInt := Int64.le_iff_toInt_le
  by_cases below : left ≤ right
  · rw [show max left right = right from if_pos below]
    have := order.mp below
    omega
  · rw [show max left right = left from if_neg below]
    have := mt order.mpr below
    omega

/-- Dividing and multiplying back stays between zero and the dividend. -/
theorem tdiv_mul_bounds (dividend : Int) {divisor : Int} (positive : 0 < divisor) :
    (0 ≤ dividend.tdiv divisor * divisor ∧ dividend.tdiv divisor * divisor ≤ dividend ∧
        0 ≤ dividend.tdiv divisor ∧ dividend.tdiv divisor ≤ dividend) ∨
      (dividend ≤ dividend.tdiv divisor * divisor ∧ dividend.tdiv divisor * divisor ≤ 0 ∧
        dividend ≤ dividend.tdiv divisor ∧ dividend.tdiv divisor ≤ 0) := by
  have bounds : ∀ value : Int, 0 ≤ value → 0 ≤ value / divisor * divisor ∧
      value / divisor * divisor ≤ value ∧ 0 ≤ value / divisor ∧ value / divisor ≤ value := by
    intro value natural
    have quotient : 0 ≤ value / divisor := Int.ediv_nonneg natural (by omega)
    exact ⟨Int.mul_nonneg quotient (by omega), Int.ediv_mul_le value (by omega), quotient,
      Int.ediv_le_self divisor natural⟩
  by_cases natural : 0 ≤ dividend
  · rw [Int.tdiv_eq_ediv_of_nonneg natural]
    exact .inl (bounds dividend natural)
  · have twins : dividend.tdiv divisor = -(-dividend / divisor) := by
      rw [← Int.tdiv_eq_ediv_of_nonneg (by omega : 0 ≤ -dividend), Int.neg_tdiv, Int.neg_neg]
    have := bounds (-dividend) (by omega)
    rw [twins, Int.neg_mul]
    omega

/-- The next multiple of a positive step is one. -/
theorem dvd_alignUp (value : Int64) (positive : 0 < step.toInt) :
    step.toInt ∣ (alignUp value step).toInt := by
  unfold alignUp
  split
  · rename_i small
    have bound : step.toInt ≤ 1 := Int64.le_iff_toInt_le.mp small
    have one : step.toInt = 1 := by omega
    exact one ▸ Int.one_dvd _
  · generalize value + step - 1 = padded
    have low := padded.le_toInt
    have high := padded.toInt_lt
    have bounds := tdiv_mul_bounds padded.toInt positive
    have quotient : (padded / step).toInt = padded.toInt.tdiv step.toInt := by
      rw [Int64.toInt_div, bmod_of_bounds (by omega) (by omega)]
    rw [Int64.toInt_mul, quotient, bmod_of_bounds (by omega) (by omega)]
    exact Int.dvd_mul_left _ _

end Word

namespace Lower

/-- An area that fits the words has a slot for every argument, is no larger than its bound, and
brings the stack to a multiple of the alignment. -/
theorem areaAt_aligned {env : Env} {depth : Int64} (positive : 0 < env.stackAlignment.toInt)
    (natural : 0 ≤ depth.toInt) (room : depth.toInt + env.areaBound count < 2 ^ 63) :
    8 * (count : Int) ≤ (env.areaAt depth count).toInt ∧
      (env.areaAt depth count).toInt ≤ env.areaBound count ∧
      (depth + env.areaAt depth count).toInt = depth.toInt + (env.areaAt depth count).toInt ∧
      env.stackAlignment.toInt ∣ depth.toInt + (env.areaAt depth count).toInt := by
  unfold Env.areaBound at room ⊢
  unfold Env.areaAt
  generalize env.stackAlignment = alignment at *
  have slots : (Int64.ofNat count * Call.slotSize).toInt = 8 * (count : Int) := by
    have small : (Int64.ofNat count).toInt = count := Int64.toInt_ofNat_of_lt (by omega)
    rw [Int64.toInt_mul, small, show Call.slotSize.toInt = 8 from rfl,
      Word.bmod_of_bounds (by omega) (by omega)]
    omega
  have area : (Call.argumentArea count env.shadowSpace).toInt =
      max (8 * (count : Int)) env.shadowSpace.toInt := by
    rw [Call.argumentArea, Word.toInt_max, slots]
  generalize env.shadowSpace = shadow at *
  generalize Call.argumentArea count shadow = needed at *
  have total : (depth + needed).toInt = depth.toInt + needed.toInt :=
    Word.toInt_add (by omega) (by omega)
  have excess : ((depth + needed) % alignment).toInt = (depth.toInt + needed.toInt) % alignment.toInt := by
    rw [Int64.toInt_mod, total, Int.tmod_eq_emod_of_nonneg (by omega)]
  have low := Int.emod_nonneg (depth.toInt + needed.toInt) (by omega : alignment.toInt ≠ 0)
  have high := Int.emod_lt_of_pos (depth.toInt + needed.toInt) positive
  have division := Int.emod_add_mul_ediv (depth.toInt + needed.toInt) alignment.toInt
  simp only [alignedArea]
  split
  · rename_i none
    have zero : (depth.toInt + needed.toInt) % alignment.toInt = 0 := by
      rw [← excess, (beq_iff_eq.mp none : (depth + needed) % alignment = 0)]
      rfl
    exact ⟨by omega, by omega, total, Int.dvd_of_emod_eq_zero zero⟩
  · have padding : (alignment - (depth + needed) % alignment).toInt =
        alignment.toInt - (depth.toInt + needed.toInt) % alignment.toInt := by
      rw [Word.toInt_sub (by omega) (by omega), excess]
    have padded : (needed + (alignment - (depth + needed) % alignment)).toInt =
        needed.toInt + (alignment.toInt - (depth.toInt + needed.toInt) % alignment.toInt) := by
      rw [Word.toInt_add (by omega) (by omega), padding]
    refine ⟨by omega, by omega, by rw [Word.toInt_add (by omega) (by omega)], ?_⟩
    rw [padded]
    exact ⟨(depth.toInt + needed.toInt) / alignment.toInt + 1, by rw [Int.mul_add]; omega⟩

end Lower
end Nasm64
