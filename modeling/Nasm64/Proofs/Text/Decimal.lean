import Nasm64.Text.Decimal

/-! The letters of numbers. -/
namespace Nasm64

theorem isDigit_of_mem_toString {number : Nat} {letter : Char}
    (mem : letter ∈ (toString number).toList) : letter.isDigit = true := by
  rw [Nat.toString_eq_ofList_toDigits, String.toList_ofList] at mem
  exact Nat.isDigit_of_mem_toDigits (by decide) (Nat.le_refl 10) mem

/-- An integer is written with digits, perhaps behind a sign. -/
theorem sign_or_digit_of_mem_toString {number : Int} {letter : Char}
    (mem : letter ∈ (toString number).toList) : letter = '-' ∨ letter.isDigit = true := by
  cases number with
  | ofNat number => exact .inr (isDigit_of_mem_toString mem)
  | negSucc number =>
    have text : (toString (Int.negSucc number)).toList = '-' :: (toString (number + 1)).toList := by
      show ("-" ++ toString (number + 1)).toList = _
      rw [String.toList_append]
      rfl
    rw [text] at mem
    rcases List.mem_cons.mp mem with sign | digit
    · exact .inl sign
    · exact .inr (isDigit_of_mem_toString digit)

namespace Text

theorem natural?_eq_some_iff {digits : List Char} : natural? digits = some number ↔
    digits ≠ [] ∧ (∀ digit ∈ digits, digit.isDigit = true) ∧ Nat.ofDigitChars 10 digits 0 = number := by
  have value : digits.foldl (fun value digit => value * 10 + (digit.toNat - '0'.toNat)) 0 =
      Nat.ofDigitChars 10 digits 0 := by
    rw [Nat.ofDigitChars_eq_foldl]
    simp [Nat.mul_comm]
  have guard : (!digits.isEmpty && digits.all Char.isDigit) = true ↔
      digits ≠ [] ∧ ∀ digit ∈ digits, digit.isDigit = true := by
    simp
  rw [natural?, value]
  split
  · next holds =>
    obtain ⟨filled, all⟩ := guard.mp holds
    rw [Option.some_inj]
    exact ⟨fun same => ⟨filled, all, same⟩, fun spelled => spelled.2.2⟩
  · next fails => exact ⟨nofun, fun ⟨filled, all, _⟩ => absurd (guard.mpr ⟨filled, all⟩) fails⟩

theorem natural?_toString (number : Nat) : natural? (toString number).toList = some number := by
  refine natural?_eq_some_iff.mpr ⟨by simp, fun _ mem => isDigit_of_mem_toString mem, ?_⟩
  rw [Nat.toString_eq_ofList_toDigits, String.toList_ofList]
  exact Nat.ofDigitChars_ten_toDigits

end Text
end Nasm64
