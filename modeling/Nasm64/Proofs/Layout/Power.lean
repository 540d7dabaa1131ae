import Mathlib.Data.Nat.Find
import Mathlib.Data.Nat.Log
import Nasm64.Proofs.Stack.Area

/-! Doubling a word until it reaches a bound. It ends at the least power of two that does, unless the
bound exceeds `2 ^ 62`: the next double is negative, the ones after it are zero, and there is no end. -/
namespace Nasm64.Word

/-- The word after some rounds of doubling. -/
def doubled (rounds : Nat) (start : Int64 := 1) : Int64 :=
  (fun word : Int64 => word <<< 1)^[rounds] start

/-- Doubling reaches the bound for the first time at this word. -/
def EndsAt (bound power : Int64) : Prop :=
  ∃ rounds, doubled rounds = power ∧ ¬ power < bound ∧ ∀ earlier < rounds, doubled earlier < bound

/-- No round of doubling reaches the bound. -/
def Endless (bound : Int64) : Prop := ∀ rounds, doubled rounds < bound

theorem shiftLeft_one (word : Int64) : word <<< 1 = word + word := by
  apply Int64.toBitVec_inj.mp
  have count : BitVec.smod (Int64.toBitVec 1) 64 = 1#64 := by decide
  have one : (1#64).toNat = 1 := rfl
  rw [Int64.toBitVec_shiftLeft, Int64.toBitVec_add, count, BitVec.shiftLeft_eq', one]
  apply BitVec.eq_of_toNat_eq
  simp only [BitVec.toNat_shiftLeft, BitVec.toNat_add, Nat.shiftLeft_eq]
  omega

theorem doubled_succ (rounds : Nat) : doubled (rounds + 1) = doubled rounds + doubled rounds := by
  rw [← shiftLeft_one]
  exact Function.iterate_succ_apply' _ _ _

theorem toInt_doubled (small : rounds ≤ 62) : (doubled rounds).toInt = 2 ^ rounds := by
  induction rounds with
  | zero => rfl
  | succ rounds ih =>
    have half : (2 : Int) ^ rounds ≤ 2 ^ 61 := pow_le_pow_right₀ (by decide) (by omega)
    have natural : (0 : Int) < 2 ^ rounds := pow_pos (by decide) rounds
    have before := ih (by omega)
    rw [doubled_succ, toInt_add (by omega) (by omega), before, pow_succ]
    omega

theorem doubled_late (late : 64 ≤ rounds) : doubled rounds = 0 := by
  induction rounds, late using Nat.le_induction with
  | base => decide +kernel
  | succ rounds _ ih => rw [doubled_succ, ih]; rfl

theorem toInt_doubled_le (rounds : Nat) : (doubled rounds).toInt ≤ 2 ^ 62 := by
  rcases Nat.lt_or_ge 62 rounds with late | early
  · rcases Nat.eq_or_lt_of_le late with rfl | later
    · decide +kernel
    · rw [doubled_late later]
      decide
  · rw [toInt_doubled early]
    exact pow_le_pow_right₀ (by decide) early

theorem endless_iff : Endless bound ↔ 2 ^ 62 < bound.toInt := by
  constructor
  · intro endless
    have last := Int64.lt_iff_toInt_lt.mp (endless 62)
    rwa [toInt_doubled (Nat.le_refl 62)] at last
  · intro large rounds
    exact Int64.lt_iff_toInt_lt.mpr (Int.lt_of_le_of_lt (toInt_doubled_le rounds) large)

theorem rounds_le_of_reached (reached : ¬ doubled rounds < bound)
    (before : ∀ earlier < rounds, doubled earlier < bound) : rounds ≤ 62 := by
  by_contra late
  refine reached (endless_iff.mpr ?_ rounds)
  have below := Int64.lt_iff_toInt_lt.mp (before 62 (by omega))
  rwa [toInt_doubled (Nat.le_refl 62)] at below

/-- Doubling ends at the least power of two that is no less than the bound. -/
theorem EndsAt.isLeast (ends : EndsAt bound power) :
    IsLeast {number : Int | bound.toInt ≤ number ∧ ∃ exponent : Nat, number = 2 ^ exponent} power.toInt := by
  obtain ⟨rounds, rfl, reached, before⟩ := ends
  have early := rounds_le_of_reached reached before
  have high := mt Int64.lt_iff_toInt_lt.mpr reached
  refine ⟨⟨by omega, rounds, toInt_doubled early⟩, ?_⟩
  rintro _ ⟨above, exponent, rfl⟩
  rw [toInt_doubled early]
  refine pow_le_pow_right₀ (by decide) ?_
  by_contra less
  have below := Int64.lt_iff_toInt_lt.mp (before exponent (by omega))
  rw [toInt_doubled (by omega)] at below
  omega

/-- Counting rounds down finds where doubling ends, if it does in time. -/
theorem doubleTo_eq_some_iff {start : Int64} : doubleTo bound rounds start = some power ↔
    ∃ more < rounds, doubled more start = power ∧ ¬ power < bound ∧
      ∀ earlier < more, doubled earlier start < bound := by
  induction rounds generalizing start with
  | zero => simp [doubleTo]
  | succ rounds ih =>
    unfold doubleTo
    split
    · rename_i below
      rw [ih]
      constructor
      · rintro ⟨more, inside, same, reached, before⟩
        refine ⟨more + 1, by omega, same, reached, ?_⟩
        rintro (_ | earlier) early
        · exact below
        · exact before earlier (by omega)
      · rintro ⟨_ | more, inside, same, reached, before⟩
        · subst same
          exact absurd below reached
        · exact ⟨more, by omega, same, reached, fun earlier early => before (earlier + 1) (by omega)⟩
    · rename_i reached
      rw [Option.some.injEq]
      constructor
      · rintro rfl
        exact ⟨0, by omega, rfl, reached, nofun⟩
      · rintro ⟨_ | more, _, same, _, before⟩
        · exact same
        · exact absurd (before 0 (by omega)) reached

theorem nextPowerOfTwo?_eq_some_iff : nextPowerOfTwo? bound = some power ↔ EndsAt bound power := by
  rw [nextPowerOfTwo?, doubleTo_eq_some_iff]
  constructor
  · rintro ⟨rounds, _, ends⟩
    exact ⟨rounds, ends⟩
  · rintro ⟨rounds, rfl, reached, before⟩
    have early := rounds_le_of_reached reached before
    exact ⟨rounds, by omega, rfl, reached, before⟩

theorem exists_endsAt (ends : ¬ Endless bound) : ∃ power, EndsAt bound power := by
  have reached : ∃ rounds, ¬ doubled rounds < bound := not_forall.mp ends
  refine ⟨_, Nat.find reached, rfl, Nat.find_spec reached, fun earlier early => ?_⟩
  exact not_not.mp (Nat.find_min reached early)

theorem nextPowerOfTwo?_eq_none_iff : nextPowerOfTwo? bound = none ↔ Endless bound := by
  constructor
  · intro missing
    by_contra ends
    obtain ⟨power, found⟩ := exists_endsAt ends
    cases missing.symm.trans (nextPowerOfTwo?_eq_some_iff.mpr found)
  · intro endless
    rw [Option.eq_none_iff_forall_ne_some]
    intro power found
    obtain ⟨rounds, rfl, reached, _⟩ := nextPowerOfTwo?_eq_some_iff.mp found
    exact reached (endless rounds)

/-- The least power of two that is no less than a number. -/
def leastPower (bound : Int) : Nat := 2 ^ Nat.clog 2 bound.toNat

theorem nextPowerOfTwo?_least (found : nextPowerOfTwo? bound = some power) :
    bound.toInt ≤ power.toInt ∧ power.toInt ≤ leastPower bound.toInt := by
  obtain ⟨⟨above, _⟩, least⟩ := (nextPowerOfTwo?_eq_some_iff.mp found).isLeast
  refine ⟨above, least ⟨?_, Nat.clog 2 bound.toInt.toNat, by simp [leastPower]⟩⟩
  have enough := Nat.le_pow_clog (by decide : 1 < 2) bound.toInt.toNat
  unfold leastPower
  omega

end Nasm64.Word
