import Nasm64.Proofs.Machine.Step
import Nasm64.Word
import Mathlib.Data.Nat.Bitwise

/-! The low bytes of words: what extensions, narrowing and arithmetic make of them. Main statement:
a constant is folded to the representative of its residue at the width. -/
namespace Nasm64

namespace Word

variable {bytes more : Nat} {word old new : BitVec 64}

theorem getLsbD_low :
    (low bytes word).getLsbD bit = (decide (bit < 8 * bytes) && word.getLsbD bit) := by
  simp only [low, BitVec.getLsbD_setWidth]
  by_cases inside : bit < 64
  · simp [inside]
  · simp [inside, BitVec.getLsbD_of_ge word bit (by omega)]

theorem low_low (narrower : bytes ≤ more) : low bytes (low more word) = low bytes word := by
  refine BitVec.eq_of_getLsbD_eq fun bit _ => ?_
  rw [getLsbD_low, getLsbD_low, getLsbD_low]
  by_cases inside : bit < 8 * bytes
  · simp [inside, show bit < 8 * more by omega]
  · simp [inside]

@[simp] theorem low_eight : low 8 word = word := by simp [low]

theorem setWidth_low : (low bytes word).setWidth (8 * bytes) = word.setWidth (8 * bytes) := by
  refine BitVec.eq_of_getLsbD_eq fun bit inside => ?_
  simp [getLsbD_low, inside]

theorem setWidth_congr (same : low bytes old = low bytes new) :
    old.setWidth (8 * bytes) = new.setWidth (8 * bytes) := by
  rw [← setWidth_low, same, setWidth_low]

theorem low_setWidth (word : BitVec (8 * bytes)) : low bytes (word.setWidth 64) = word.setWidth 64 := by
  refine BitVec.eq_of_getLsbD_eq fun bit inside => ?_
  rw [getLsbD_low, BitVec.getLsbD_setWidth]
  by_cases covered : bit < 8 * bytes
  · simp [covered]
  · simp [covered, BitVec.getLsbD_of_ge word bit (by omega)]

theorem low_blend : low bytes (blend bytes old new) = low bytes new := by
  refine BitVec.eq_of_getLsbD_eq fun bit inside => ?_
  unfold blend
  split
  · rename_i half
    subst half
    rw [low_low (Nat.le_refl _)]
  · simp only [getLsbD_low, BitVec.getLsbD_or, BitVec.getLsbD_shiftLeft]
    by_cases covered : bit < 8 * bytes
    · simp [covered]
    · simp [covered]

theorem blend_low : blend bytes old (low bytes new) = blend bytes old new := by
  unfold blend
  rw [low_low (Nat.le_refl bytes)]
  split
  · rename_i half
    rw [half, low_low (Nat.le_refl 4)]
  · rfl

theorem blend_eight : blend 8 old new = new := by
  refine BitVec.eq_of_getLsbD_eq fun bit inside => ?_
  simp [blend, inside]

theorem low_congr (same : new.setWidth (8 * bytes) = word.setWidth (8 * bytes)) :
    low bytes new = low bytes word := by
  simp only [low, same]

theorem low_neg (narrow : bytes ≤ 8) : low bytes (-low bytes word) = low bytes (-word) := by
  apply low_congr
  rw [BitVec.setWidth_neg_of_le (by omega), BitVec.setWidth_neg_of_le (by omega), setWidth_low]

theorem low_not (narrow : bytes ≤ 8) : low bytes (~~~low bytes word) = low bytes (~~~word) := by
  apply low_congr
  rw [BitVec.setWidth_not (by omega), BitVec.setWidth_not (by omega), setWidth_low]

theorem extend_low : extend signed bytes (low bytes word) = extend signed bytes word := by
  simp only [extend, setWidth_low, low_low (Nat.le_refl bytes)]

theorem low_extend (narrower : bytes ≤ more) :
    low bytes (extend signed more word) = low bytes word := by
  unfold extend
  split
  · refine BitVec.eq_of_getLsbD_eq fun bit inside => ?_
    rw [getLsbD_low, getLsbD_low]
    by_cases covered : bit < 8 * bytes
    · have kept : bit < 8 * more := by omega
      rw [BitVec.getLsbD_signExtend, BitVec.getLsbD_setWidth]
      simp [covered, kept, inside]
    · simp [covered]
  · exact low_low narrower

theorem setWidth_extend : (extend signed bytes word).setWidth (8 * bytes) = word.setWidth (8 *
    bytes) := setWidth_congr (low_extend (Nat.le_refl bytes))

theorem toInt_eq_toNat (v : Int64) : v.toInt = if 2 * v.toBitVec.toNat < 2 ^ 64 then
    (v.toBitVec.toNat : Int) else v.toBitVec.toNat - 2 ^ 64 := BitVec.toInt_eq_toNat_cond v.toBitVec

theorem toNat_oneAt (inside : place < 64) : (oneAt place).toBitVec.toNat = 2 ^ place := by
  have fits : 2 ^ place < 2 ^ 64 := Nat.pow_lt_pow_right (by decide) inside
  rw [oneAt, Int64.toBitVec_ofBitVec, BitVec.toNat_shiftLeft, Nat.shiftLeft_eq]
  exact (congrArg (· % 2 ^ 64) (Nat.one_mul _)).trans (Nat.mod_eq_of_lt fits)

/-- The bits below a bit are the residue. -/
theorem toNat_mask (inside : bits < 64) (v : Int64) :
    (v &&& (oneAt bits - 1)).toBitVec.toNat = v.toBitVec.toNat % 2 ^ bits := by
  have fits : 2 ^ bits < 2 ^ 64 := Nat.pow_lt_pow_right (by decide) inside
  have positive : 0 < 2 ^ bits := Nat.pow_pos (by decide)
  have mask : (oneAt bits - 1).toBitVec.toNat = 2 ^ bits - 1 := by
    rw [Int64.toBitVec_sub, BitVec.toNat_sub, toNat_oneAt inside,
      show (Int64.toBitVec 1).toNat = 1 from rfl]
    omega
  rw [Int64.toBitVec_and, BitVec.toNat_and, mask, Nat.and_two_pow_sub_one_eq_mod]

/-- The highest bit of a number is set from half of its range on. -/
theorem and_oneAt_eq_zero_iff (inside : place < 64) {v : Int64}
    (short : v.toBitVec.toNat < 2 ^ (place + 1)) : v &&& oneAt place = 0 ↔ v.toBitVec.toNat < 2 ^ place := by
  have positive : 0 < 2 ^ place := Nat.pow_pos (by decide)
  rw [← Int64.toBitVec_inj, ← BitVec.toNat_inj, Int64.toBitVec_and, BitVec.toNat_and, toNat_oneAt inside,
    Nat.and_two_pow, Nat.testBit_eq_decide_div_mod_eq, show (Int64.toBitVec 0).toNat = 0 from rfl]
  rcases Nat.lt_or_ge v.toBitVec.toNat (2 ^ place) with lower | upper
  · simp [Nat.div_eq_of_lt lower, lower]
  · have half : v.toBitVec.toNat / 2 ^ place = 1 := Nat.div_eq_of_lt_le (by omega) (by omega)
    simp [half, Nat.not_lt.mpr upper]

theorem toNat_emod (inside : bits < 64) (v : Int64) :
    ((v.toBitVec.toNat % 2 ^ bits : Nat) : Int) = v.toInt % (2 ^ bits : Nat) := by
  have divides : ((2 ^ bits : Nat) : Int) ∣ ((2 ^ 64 : Nat) : Int) :=
    Int.natCast_dvd_natCast.mpr (Nat.pow_dvd_pow 2 (by omega))
  rw [show v.toInt = (v.toBitVec.toNat : Int).bmod (2 ^ 64) from BitVec.toInt_eq_toNat_bmod v.toBitVec,
    ← Int.emod_emod_of_dvd _ divides, Int.bmod_emod, Int.emod_emod_of_dvd _ divides, Int.natCast_emod]

/-- Below eight bytes the mask, the test of the sign bit and the subtraction leave the residue that is
nearest to zero for a signed type and the least one for an unsigned type. -/
theorem toInt_fold {size : Int} (least : 1 ≤ size) (narrow : size < 8) (v : Int64) (signed : Bool) :
    (fold v size signed).toInt = if signed then v.toInt.bmod (2 ^ (8 * size.toNat))
      else v.toInt % (2 ^ (8 * size.toNat) : Nat) := by
  obtain ⟨place, width⟩ : ∃ place, 8 * size.toNat = place + 1 := ⟨8 * size.toNat - 1, by omega⟩
  have bits : (size * 8 % 18446744073709551616).toNat = place + 1 := by omega
  have double : 2 ^ (place + 1) = 2 * 2 ^ place := Nat.pow_succ'
  have wide : 2 ^ place ≤ 2 ^ 55 := Nat.pow_le_pow_right (by decide) (by omega)
  have positive : 0 < 2 ^ place := Nat.pow_pos (by decide)
  have masked := toNat_mask (show place + 1 < 64 by omega) v
  have below := Nat.mod_lt v.toBitVec.toNat (show 2 ^ (place + 1) > 0 by omega)
  have sign := and_oneAt_eq_zero_iff (show place < 64 by omega) (masked.trans_lt below)
  have top := toInt_eq_toNat (oneAt (place + 1))
  have kept := toInt_eq_toNat (v &&& (oneAt (place + 1) - 1))
  rw [toNat_oneAt (by omega), if_pos (by omega)] at top
  rw [masked] at sign kept
  rw [if_pos (by omega), toNat_emod (by omega)] at kept
  rw [width]
  simp only [fold, bits, show ¬ 64 ≤ place + 1 by omega, if_false, Nat.add_sub_cancel]
  cases signed with
  | false => exact kept
  | true =>
    have residue := toNat_emod (show place + 1 < 64 by omega) v
    simp only [Bool.true_and, bne_iff_ne, ne_eq, sign, if_true, Int.bmod_def]
    rcases Nat.lt_or_ge (v.toBitVec.toNat % 2 ^ (place + 1)) (2 ^ place) with lower | upper
    · rw [if_neg (not_not.mpr lower), if_pos (by omega), kept]
    · rw [if_pos (Nat.not_lt.mpr upper), if_neg (by omega), Int64.toInt_sub, kept, top]
      exact Int.bmod_eq_of_le (by omega) (by omega)

theorem fold_eight : fold v 8 signed = v := rfl

/-- Folding a constant at a width extends its low bytes. -/
theorem toBitVec_fold (width : bytes = 1 ∨ bytes = 2 ∨ bytes = 4 ∨ bytes = 8) :
    (fold v bytes signed).toBitVec = extend signed bytes v.toBitVec := by
  have signs := toInt_eq_toNat v
  rcases Nat.lt_or_ge bytes 8 with narrow | whole
  · apply BitVec.eq_of_toInt_eq
    have folded := toInt_fold (show 1 ≤ (bytes : Int) by omega) (by omega) v signed
    rw [Int.toNat_natCast] at folded
    refine folded.trans ?_
    cases signed with
    | false =>
      rcases width with rfl | rfl | rfl | rfl
      all_goals simp [extend, low, BitVec.toInt_eq_toNat_cond]
      all_goals omega
    | true =>
      rcases width with rfl | rfl | rfl | rfl
      all_goals simp [extend, BitVec.toInt_signExtend_of_le, BitVec.toInt_setWidth, Int.bmod_def]
      all_goals omega
  · obtain rfl : bytes = 8 := by omega
    cases signed <;> simp [fold_eight, extend, low]

theorem toInt_fold_emod {size : Int} (least : 1 ≤ size) (most : size ≤ 8) (v : Int64) (signed : Bool) :
    (fold v size signed).toInt % (2 ^ (8 * size.toNat) : Nat) =
      v.toInt % (2 ^ (8 * size.toNat) : Nat) := by
  rcases Int.lt_or_eq_of_le most with narrow | rfl
  · rw [toInt_fold least narrow]
    cases signed with
    | false => exact Int.emod_emod_of_dvd _ (Int.dvd_refl _)
    | true => exact Int.bmod_emod
  · rfl

/-- Folding at a width reads no more than the bytes of that width. -/
theorem fold_congr {size : Int} (least : 1 ≤ size) (most : size ≤ 8) {u v : Int64}
    (same : u.toInt % (2 ^ (8 * size.toNat) : Nat) = v.toInt % (2 ^ (8 * size.toNat) : Nat)) :
    fold u size signed = fold v size signed := by
  apply Int64.toInt_inj.mp
  rcases Int.lt_or_eq_of_le most with narrow | rfl
  · rw [toInt_fold least narrow, toInt_fold least narrow, same]
    simp only [Int.bmod_def, same]
  · have := u.le_toInt
    have := u.toInt_lt
    have := v.le_toInt
    have := v.toInt_lt
    have same : u.toInt % 18446744073709551616 = v.toInt % 18446744073709551616 := same
    simp only [fold_eight]
    omega

/-- A constant is folded to the representative of its residue at the width, with a sign or without.
So folding it again, at that width or a narrower one and with either sign, is like folding it once. -/
theorem fold_canonical (value : Int64) (signed : Bool) {size : Int} (least : 1 ≤ size)
    (most : size ≤ 8) :
    (fold value size signed).toInt % 2 ^ (8 * size.toNat) = value.toInt % 2 ^ (8 * size.toNat) ∧
      (size < 8 → signed = true → -2 ^ (8 * size.toNat - 1) ≤ (fold value size signed).toInt ∧
        (fold value size signed).toInt < 2 ^ (8 * size.toNat - 1)) ∧
      (size < 8 → signed = false → 0 ≤ (fold value size signed).toInt ∧
        (fold value size signed).toInt < 2 ^ (8 * size.toNat)) ∧
      fold (fold value size signed) size signed = fold value size signed ∧
      ∀ narrower : Int, 1 ≤ narrower → narrower ≤ size → ∀ other,
        fold (fold value size signed) narrower other = fold value narrower other := by
  have congruent := toInt_fold_emod least most value signed
  have absorbs : ∀ narrower : Int, 1 ≤ narrower → narrower ≤ size → ∀ other,
      fold (fold value size signed) narrower other = fold value narrower other := by
    intro narrower some_ below other
    have divides : ((2 ^ (8 * narrower.toNat) : Nat) : Int) ∣ (2 ^ (8 * size.toNat) : Nat) :=
      Int.natCast_dvd_natCast.mpr (Nat.pow_dvd_pow 2 (by omega))
    refine fold_congr some_ (by omega) ?_
    rw [← Int.emod_emod_of_dvd _ divides, congruent, Int.emod_emod_of_dvd _ divides]
  have halves : (2 : Int) ^ (8 * size.toNat) = 2 * 2 ^ (8 * size.toNat - 1) := by
    rw [← pow_succ', show 8 * size.toNat - 1 + 1 = 8 * size.toNat by omega]
  have positive : 0 < 2 ^ (8 * size.toNat) := Nat.pow_pos (by decide)
  refine ⟨by exact_mod_cast congruent, fun narrow given => ?_, fun narrow given => ?_,
    absorbs size least (Int.le_refl _) signed, absorbs⟩
  · have low := Int.le_bmod positive (x := value.toInt)
    have high := Int.bmod_lt positive (x := value.toInt)
    rw [toInt_fold least narrow, if_pos given]
    push_cast at low high
    omega
  · have modulus : (0 : Int) < (2 ^ (8 * size.toNat) : Nat) := Int.natCast_pos.mpr positive
    rw [toInt_fold least narrow, given]
    exact ⟨Int.emod_nonneg _ (by omega), by exact_mod_cast Int.emod_lt_of_pos value.toInt modulus⟩

theorem fold_canonical_word : (fold 511 2 false = 511 ∧ fold (fold 511 2 false) 1 true = -1) ∧
    fold (fold 511 2 false) 1 true = fold 511 1 true := by
  refine ⟨by decide, ?_⟩
  obtain ⟨_, _, _, _, absorbs⟩ := fold_canonical 511 false (show 1 ≤ 2 by decide) (by decide)
  exact absorbs 1 (by decide) (by decide) true

/-- Shifting out everything but the sign leaves a word of signs. -/
theorem sshiftRight_sign (word : BitVec 64) :
    word.sshiftRight 63 = if word.msb then BitVec.allOnes 64 else 0 := by
  refine BitVec.eq_of_getLsbD_eq fun bit inside => ?_
  have sign : (if 63 + bit < 64 then word.getLsbD (63 + bit) else word.msb) = word.msb := by
    split
    · rw [show 63 + bit = 63 by omega]
      rfl
    · rfl
  rw [BitVec.getLsbD_sshiftRight, sign]
  cases word.msb with
  | true => rw [if_pos rfl, BitVec.getLsbD_allOnes]; simp [inside]
  | false => simp

theorem msb_extend (narrow : bytes < 8) (word : BitVec 64) :
    (extend true bytes word).msb = (word.setWidth (8 * bytes)).msb := by
  simp [extend, BitVec.msb_signExtend, show ¬ 64 ≤ 8 * bytes by omega]

section Division

variable {width : Nat} {high dividend divisor : BitVec width}

/-- A dividend that is extended by its sign. -/
theorem toInt_signed_append (filled : high = if dividend.msb then BitVec.allOnes width else 0) :
    (high ++ dividend).toInt = dividend.toInt := by
  cases width with
  | zero => rw [BitVec.toInt_of_zero_length (by omega), BitVec.toInt_of_zero_length rfl]
  | succ width =>
    rw [BitVec.toInt_append, filled, BitVec.toInt_eq_msb_cond dividend]
    cases dividend.msb with
    | true =>
      have ones : (BitVec.allOnes (width + 1)).toInt = -1 := by
        rw [BitVec.toInt_allOnes, if_pos (by omega)]
      simp only [if_true, ones, Nat.add_one_ne_zero, beq_iff_eq, if_false]
      push_cast
      omega
    | false => simp

/-- A signed division has a result when the divisor is not zero and the quotient fits. -/
theorem divide?_signed (filled : high = if dividend.msb then BitVec.allOnes width else 0)
    (nonzero : divisor ≠ 0)
    (fits : dividend ≠ BitVec.intMin width ∨ divisor ≠ BitVec.allOnes width) :
    divide? true high dividend divisor = some (dividend.sdiv divisor, dividend.srem divisor) := by
  have quotient : dividend.toInt.tdiv divisor.toInt = (dividend.sdiv divisor).toInt := by
    rw [← BitVec.neg_one_eq_allOnes] at fits
    rw [BitVec.toInt_sdiv_of_ne_or_ne _ _ fits]
  have positive : 0 < width := by
    rcases Nat.eq_zero_or_pos width with rfl | positive
    · exact absurd (Subsingleton.elim divisor 0) nonzero
    · exact positive
  have low := BitVec.le_toInt (dividend.sdiv divisor)
  have high_ := BitVec.toInt_lt (x := dividend.sdiv divisor)
  have remainder : BitVec.ofInt width (dividend.toInt.tmod divisor.toInt) = dividend.srem divisor := by
    rw [← BitVec.toInt_srem, BitVec.ofInt_toInt]
  simp only [divide?, if_true, toInt_signed_append filled, quotient, remainder, BitVec.ofInt_toInt]
  exact if_pos ⟨nonzero, low, high_⟩

theorem divide?_unsigned (nonzero : divisor ≠ 0) :
    divide? false 0 dividend divisor = some (dividend / divisor, dividend % divisor) := by
  have whole : ((0 : BitVec width) ++ dividend).toNat = dividend.toNat := by
    simp [BitVec.toNat_append]
  have small : dividend.toNat / divisor.toNat < 2 ^ width :=
    Nat.lt_of_le_of_lt (Nat.div_le_self _ _) dividend.isLt
  have quotient : BitVec.ofNat width (dividend.toNat / divisor.toNat) = dividend / divisor := by
    apply BitVec.eq_of_toNat_eq
    rw [BitVec.toNat_ofNat, BitVec.toNat_udiv, Nat.mod_eq_of_lt small]
  have remainder : BitVec.ofNat width (dividend.toNat % divisor.toNat) = dividend % divisor := by
    apply BitVec.eq_of_toNat_eq
    rw [BitVec.toNat_ofNat, BitVec.toNat_umod]
    exact Nat.mod_eq_of_lt (Nat.lt_of_le_of_lt (Nat.mod_le _ _) dividend.isLt)
  simp only [divide?, Bool.false_eq_true, if_false, whole, quotient, remainder]
  exact if_pos ⟨nonzero, small⟩

theorem divide?_zero (signed : Bool) : divide? signed high dividend 0 = none := by
  cases signed <;> simp [divide?]

/-- The quotient of the least word and minus one does not fit. -/
theorem divide?_overflow (filled : high = if (BitVec.intMin width).msb then BitVec.allOnes width else 0) :
    divide? true high (BitVec.intMin width) (BitVec.allOnes width) = none := by
  cases width with
  | zero => simp [divide?]
  | succ width =>
    have least : (BitVec.intMin (width + 1)).toInt = -2 ^ width := by
      rw [BitVec.toInt_intMin_of_pos (by omega)]
      simp
    have ones : (BitVec.allOnes (width + 1)).toInt = -1 := by
      rw [BitVec.toInt_allOnes, if_pos (by omega)]
    simp only [divide?, if_true, toInt_signed_append filled, least, ones]
    refine if_neg fun fits => ?_
    have below := fits.2.2
    simp at below

/-- The low half of a product is the product of the halves. -/
theorem multiply_low (left right : BitVec width) : (multiply left right).2 = left * right := by
  simp only [multiply]
  rw [BitVec.setWidth_mul _ _ (by omega), BitVec.setWidth_setWidth_of_le _ (by omega),
    BitVec.setWidth_setWidth_of_le _ (by omega), BitVec.setWidth_eq, BitVec.setWidth_eq]

end Division

end Word

namespace Memory

variable {memory : Memory} {addr : BitVec 64} {bytes more : Nat}

theorem low_load (narrower : bytes ≤ more) :
    Word.low bytes (memory.load addr more) = memory.load addr bytes := by
  refine BitVec.eq_of_getLsbD_eq fun bit inside => ?_
  rw [Word.getLsbD_low, load_bit _ _ _ inside, load_bit _ _ _ inside]
  by_cases covered : bit < 8 * bytes
  · simp [covered, show bit < 8 * more by omega]
  · simp [covered]

end Memory
end Nasm64
