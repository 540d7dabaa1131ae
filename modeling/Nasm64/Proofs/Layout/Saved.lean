import Nasm64.Proofs.Layout.Method

/-! The slots of the registers to preserve. They keep apart from each other wherever they are, also
when the frame exceeds the largest word and its positions wrap around. -/
namespace Nasm64

namespace Word

theorem div_mul_eq_sub_mod (v : Int64) (usual : step ≠ -1) : v / step * step = v - v % step := by
  rw [← Int64.toInt_inj, Int64.toInt_mul, Int64.toInt_div_of_ne_right _ _ usual, Int64.toInt_sub,
    Int64.toInt_mod]
  congr 1
  have split := Int.mul_tdiv_add_tmod v.toInt step.toInt
  rw [Int.mul_comm] at split
  omega

/-- Rounding adds little to a word, whichever way its division rounds. -/
theorem alignUp_padding (v : Int64) (wide : 1 < step.toInt) : ∃ padding : Int, 0 ≤ padding ∧
    padding < 2 * step.toInt ∧ alignUp v step = v + Int64.ofInt padding := by
  have one : (1 : Int64).toInt = 1 := rfl
  have large : ¬ step ≤ 1 := by
    rw [Int64.le_iff_toInt_le, one]
    omega
  have usual : step ≠ -1 := by
    rintro rfl
    exact absurd wide (by decide)
  have low := Int.lt_tmod_of_pos (v + step - 1).toInt (Int.lt_trans Int.one_pos wide)
  have high := Int.tmod_lt_of_pos (v + step - 1).toInt (Int.lt_trans Int.one_pos wide)
  rw [← Int64.toInt_mod] at low high
  refine ⟨step.toInt - 1 - ((v + step - 1) % step).toInt, by omega, by omega, ?_⟩
  rw [alignUp, if_neg large, div_mul_eq_sub_mod _ usual, Int64.ofInt_sub, Int64.ofInt_sub,
    Int64.ofInt_toInt, Int64.ofInt_toInt]
  have lit : Int64.ofInt 1 = 1 := rfl
  rw [lit]
  grind

end Word

namespace Lower

/-- Slots that have no byte in common. Bytes are counted from the frame pointer, in words. -/
def FrameSlot.Apart (first second : FrameSlot) : Prop :=
  ∀ i j : Nat, i < first.bytes → j < second.bytes →
    -first.offset + Int64.ofNat i ≠ -second.offset + Int64.ofNat j

/-- A slot that lies further down by less than all words. -/
theorem FrameSlot.Apart.of_distance {first second : FrameSlot} {distance : Int}
    (offset : second.offset = first.offset + Int64.ofInt distance) (low : second.bytes ≤ distance)
    (high : distance + first.bytes ≤ 2 ^ 64) : first.Apart second := by
  intro i j inFirst inSecond same
  have difference : Int64.ofInt (distance + i - j) = 0 := by
    rw [Int64.ofInt_sub, Int64.ofInt_add, Int64.ofInt_eq_ofNat, Int64.ofInt_eq_ofNat]
    grind
  have zero : (distance + i - j).bmod (2 ^ 64) = 0 :=
    Int64.toInt_ofInt.symm.trans (by rw [difference, Int64.toInt_zero])
  have multiple := Int.dvd_of_bmod_eq_zero zero
  omega

variable {env : Env} {frame next : Frame}

/-- How far below the last slot the next one starts, when it is as large as it is aligned. -/
theorem Frame.reserve_distance (reserved : frame.reserve step step = (offset, next))
    (wide : 1 < step.toInt) :
    ∃ distance : Int, step.toInt ≤ distance ∧ distance < 3 * step.toInt ∧
      offset = frame.position + Int64.ofInt distance ∧ next.position = offset := by
  simp only [Frame.reserve, Prod.mk.injEq] at reserved
  obtain ⟨rfl, rfl⟩ := reserved
  have same : max step 1 = step := by
    have one : (1 : Int64).toInt = 1 := rfl
    rw [← Int64.toInt_inj, Word.toInt_max, one]
    omega
  obtain ⟨padding, low, high, aligned⟩ := Word.alignUp_padding (frame.position + step) wide
  refine ⟨step.toInt + padding, by omega, by omega, ?_, rfl⟩
  rw [same, aligned, Int64.ofInt_add, Int64.ofInt_toInt, Int64.add_assoc]

theorem SavedSlot.frameSlot_bytes_le (slot : SavedSlot) : slot.frameSlot.bytes ≤ 16 := by
  show (savedNeed slot.register.family).bytes ≤ 16
  unfold savedNeed
  split <;> decide

theorem preserve_distance (run : Yields (preserve fam) env frame slot next) :
    ∃ distance : Int, slot.frameSlot.bytes ≤ distance ∧ distance < 48 ∧
      slot.offset = frame.position + Int64.ofInt distance ∧ next.position = slot.offset := by
  unfold preserve at run
  cases float : fam.isFloat
  all_goals
    simp only [float, Bool.false_eq_true, if_true, if_false, yields_bind, yields_pure] at run
    obtain ⟨_, mid, reserved, rfl, rfl⟩ := run
    obtain ⟨distance, low, high, offset, pos⟩ :=
      Frame.reserve_distance (yields_reserve.mp reserved) (by decide)
    refine ⟨distance, ?_, by simp at high; omega, offset, pos⟩
    simp only [SavedSlot.frameSlot, savedNeed, float]
    exact low

theorem preserveAll_apart {families : List Family} {saved : List SavedSlot}
    (few : families.length ≤ 9) (run : Yields (families.mapM preserve) env frame saved next) :
    (∀ slot ∈ saved, ∃ distance : Int, slot.frameSlot.bytes ≤ distance ∧
        distance ≤ 48 * families.length ∧ slot.offset = frame.position + Int64.ofInt distance) ∧
      (saved.map SavedSlot.frameSlot).Pairwise FrameSlot.Apart := by
  induction families generalizing frame saved with
  | nil =>
    obtain ⟨rfl, rfl⟩ := yields_pure.mp run
    simp
  | cons fam rest ih =>
    rw [List.length_cons] at few ⊢
    rw [List.mapM_cons] at run
    simp only [yields_bind, yields_pure] at run
    obtain ⟨slot, mid, one, others, _, all, rfl, rfl⟩ := run
    obtain ⟨step, least, most, offset, pos⟩ := preserve_distance one
    obtain ⟨further, apart⟩ := ih (by omega) all
    rw [pos] at further
    have natural := slot.frameSlot.bytes_pos
    constructor
    · intro other mem
      rcases List.mem_cons.mp mem with rfl | mem
      · exact ⟨step, least, by omega, offset⟩
      · obtain ⟨distance, low, high, placed⟩ := further other mem
        refine ⟨step + distance, by omega, by omega, ?_⟩
        rw [placed, offset, Int64.ofInt_add, Int64.add_assoc]
    · refine List.pairwise_cons.mpr ⟨fun other mem => ?_, apart⟩
      obtain ⟨second, listed, rfl⟩ := List.mem_map.mp mem
      obtain ⟨distance, low, high, placed⟩ := further second listed
      have small := slot.frameSlot_bytes_le
      exact .of_distance placed low (by omega)

end Lower

def Family.calleeSaved : List Family := [.rdi, .rsi, .rbx, .r12, .r13, .r14, .r15, .float 6, .float 7]

theorem Family.mem_calleeSaved (saved : fam.isCalleeSaved = true) : fam ∈ calleeSaved := by
  cases fam with
  | xmm idx =>
    revert idx
    decide
  | unknown code => cases saved
  | _ =>
    revert saved
    decide

theorem Family.length_le_of_calleeSaved {families : List Family} (distinct : families.Nodup)
    (saved : ∀ fam ∈ families, fam.isCalleeSaved = true) : families.length ≤ 9 :=
  (distinct.subperm fun fam mem => mem_calleeSaved (saved fam mem)).length_le

end Nasm64
