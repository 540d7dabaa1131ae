import Mathlib.Data.Int.ModEq
import Nasm64.Document.Program
import Nasm64.Proofs.Text.Decimal

/-! Whole numbers in documents.

The grammar of JSON settles what the text of a number is. Such a text is a whole number if it has neither
fraction nor exponent, and then it is taken if 64 bits hold it, signed or unsigned. The readers of words
know other bases too, but a number never has a zero in front of its digits. -/
namespace Nasm64

namespace Text

/-- The letters are those of a whole number: digits, perhaps behind a minus sign. -/
inductive Spells : List Char → Int → Prop
  | plain (filled : digits ≠ []) (all : ∀ digit ∈ digits, digit.isDigit = true) :
    Spells digits (Nat.ofDigitChars 10 digits 0)
  | negative (filled : digits ≠ []) (all : ∀ digit ∈ digits, digit.isDigit = true) :
    Spells ('-' :: digits) (-Nat.ofDigitChars 10 digits 0)

theorem le_ofDigitChars (digits : List Char) (value : Nat) : value ≤ Nat.ofDigitChars 10 digits value := by
  induction digits generalizing value with
  | nil => exact Nat.le_refl value
  | cons digit digits ih =>
    rw [Nat.ofDigitChars_cons]
    exact Nat.le_trans (by omega) (ih _)

theorem ne_underscore_of_isDigit {letter : Char} (digit : letter.isDigit = true) : letter ≠ '_' := by
  rintro rfl
  cases digit

theorem exists_digit? {letter : Char} (digit : letter.isDigit = true) : ∃ number : UInt64,
    digit? letter = some number ∧ number.toNat = letter.toNat - '0'.toNat ∧ number.toNat < 10 := by
  have most : letter.toNat ≤ '9'.toNat := (Char.isDigit_iff_toNat.mp digit).2
  have least : letter.toNat - '0'.toNat < 10 := Nat.lt_of_le_of_lt (Nat.sub_le_sub_right most _) (by decide)
  have worth : (letter.toNat - '0'.toNat).toUInt64.toNat = letter.toNat - '0'.toNat :=
    UInt64.toNat_ofNat_of_lt' (Nat.lt_trans least (by decide))
  exact ⟨_, if_pos digit, worth, worth.trans_lt least⟩

/-- A decimal digit is read exactly when the word has room for it. The quotient tells whether the product
fits, the comparison whether the sum does. -/
theorem accumulate_cons {letter : Char} (digit : letter.isDigit = true) (value : UInt64) :
    accumulate 10 value (letter :: rest) =
      if 10 * value.toNat + (letter.toNat - '0'.toNat) < 2 ^ 64 then
        accumulate 10 (.ofNat (10 * value.toNat + (letter.toNat - '0'.toNat))) rest
      else none := by
  obtain ⟨number, read, worth, least⟩ := exists_digit? digit
  have below : ¬ 10 ≤ number := by
    rw [UInt64.le_iff_toNat_le]
    exact Nat.not_le.mpr least
  rw [accumulate, beq_false_of_ne (ne_underscore_of_isDigit digit), read, ← worth]
  simp only [Bool.false_eq_true, if_false, below]
  have quotient : (18446744073709551615 / 10 + 1 ≤ value) ↔ 2 ^ 64 ≤ 10 * value.toNat := by
    rw [UInt64.le_iff_toNat_le,
      show (18446744073709551615 / 10 + 1 : UInt64).toNat = 1844674407370955162 by decide]
    omega
  by_cases product : 10 * value.toNat < 2 ^ 64
  · have shifted : (value * 10).toNat = 10 * value.toNat := by
      rw [UInt64.toNat_mul, show (10 : UInt64).toNat = 10 from rfl, Nat.mul_comm, Nat.mod_eq_of_lt product]
    have sum : (value * 10 + number).toNat = (10 * value.toNat + number.toNat) % 2 ^ 64 := by
      rw [UInt64.toNat_add, shifted]
    have carried : value * 10 + number < value * 10 ↔ ¬ 10 * value.toNat + number.toNat < 2 ^ 64 := by
      rw [UInt64.lt_iff_toNat_lt, sum, shifted]
      omega
    have same : value * 10 + number = .ofNat (10 * value.toNat + number.toNat) := by
      rw [← UInt64.toNat_inj, sum, UInt64.toNat_ofNat']
    rw [if_neg fun full => absurd product (Nat.not_lt.mpr (quotient.mp full))]
    by_cases fits : 10 * value.toNat + number.toNat < 2 ^ 64
    · rw [if_neg fun carry => carried.mp carry fits, if_pos fits, same]
    · rw [if_pos (carried.mpr fits), if_neg fits]
  · rw [if_pos (quotient.mpr (Nat.not_lt.mp product)), if_neg fun fits => product (by omega)]

/-- Decimal digits fill a word as long as their number fits it. -/
theorem accumulate_decimal (all : ∀ letter ∈ digits, letter.isDigit = true) (value : UInt64) :
    accumulate 10 value digits = if Nat.ofDigitChars 10 digits value.toNat < 2 ^ 64 then
      some (.ofNat (Nat.ofDigitChars 10 digits value.toNat)) else none := by
  induction digits generalizing value with
  | nil =>
    rw [accumulate, Nat.ofDigitChars_nil, if_pos value.toNat_lt, UInt64.ofNat_toNat]
  | cons digit digits ih =>
    have larger := le_ofDigitChars digits (10 * value.toNat + (digit.toNat - '0'.toNat))
    rw [accumulate_cons (all digit List.mem_cons_self), Nat.ofDigitChars_cons]
    split
    · next fits =>
      rw [ih fun letter mem => all letter (List.mem_cons_of_mem _ mem), UInt64.toNat_ofNat_of_lt' fits]
    · next full => rw [if_neg (by omega)]

theorem ten_le_digit? {letter : Char} (other : letter.isDigit = false) (read : digit? letter = some number) :
    10 ≤ number := by
  rw [digit?, other, if_neg Bool.false_ne_true] at read
  split at read
  · have small : letter.toLower.toNat < 2 ^ 32 := letter.toLower.val.toNat_lt
    rw [← Option.some.inj read, UInt64.le_iff_toNat_le]
    refine Nat.le_trans ?_ (Nat.le_of_eq (UInt64.toNat_ofNat_of_lt' ?_).symm)
    · exact Nat.le_add_left 10 _
    · exact Nat.lt_of_le_of_lt (Nat.add_le_add_right (Nat.sub_le _ _) 10)
        (show letter.toLower.toNat + 10 < 2 ^ 64 by omega)
  · cases read

/-- No base up to ten has a letter among its digits. -/
theorem accumulate_eq_none {letters : List Char} (small : base ≤ 10) (mem : letter ∈ letters)
    (other : letter.isDigit = false) (plain : letter ≠ '_') (value : UInt64) :
    accumulate base value letters = none := by
  induction letters generalizing value with
  | nil => cases mem
  | cons first rest ih =>
    rw [accumulate]
    rcases List.mem_cons.mp mem with rfl | inside
    · rw [beq_false_of_ne plain, if_neg Bool.false_ne_true]
      cases read : digit? letter with
      | none => rfl
      | some number => exact if_pos (UInt64.le_trans small (ten_le_digit? other read))
    · split
      · exact ih inside value
      · cases digit? first with
        | none => rfl
        | some number =>
          dsimp only
          split
          · rfl
          · split
            · rfl
            · split
              · rfl
              · exact ih inside _

theorem separates_of_plain {letters : List Char} (plain : '_' ∉ letters) :
    separates behind letters = (behind || !letters.isEmpty) := by
  induction letters generalizing behind with
  | nil => rw [separates, List.isEmpty_nil, Bool.not_true, Bool.or_false]
  | cons letter letters ih =>
    have first : letter ≠ '_' := by
      rintro rfl
      exact plain List.mem_cons_self
    rw [separates, beq_false_of_ne first, if_neg Bool.false_ne_true,
      ih fun mem => plain (List.mem_cons_of_mem _ mem), List.isEmpty_cons, Bool.true_or, Bool.not_false,
      Bool.or_true]

theorem splitBase_of_nonzero {first : Char} (nonzero : first ≠ '0') :
    splitBase (first :: rest) = (10, first :: rest) := by
  unfold splitBase
  split
  · next same => exact absurd (List.cons.inj same).1 nonzero
  · next same => exact absurd (List.cons.inj same).1 nonzero
  · rfl

/-- Decimal digits without a zero in front are read in full. -/
theorem unsigned?_decimal {first : Char} (nonzero : first ≠ '0')
    (all : ∀ letter ∈ first :: rest, letter.isDigit = true) :
    unsigned? (first :: rest) = if Nat.ofDigitChars 10 (first :: rest) 0 < 2 ^ 64 then
      some (.ofNat (Nat.ofDigitChars 10 (first :: rest) 0)) else none := by
  have plain : '_' ∉ first :: rest := fun mem => ne_underscore_of_isDigit (all _ mem) rfl
  rw [unsigned?, splitBase_of_nonzero nonzero]
  dsimp only
  rw [accumulate_decimal all, separates_of_plain plain, show (0 : UInt64).toNat = 0 from rfl]
  by_cases fits : Nat.ofDigitChars 10 (first :: rest) 0 < 2 ^ 64
  · rw [if_pos fits]
    rfl
  · rw [if_neg fits]

end Text

namespace Json

theorem NumberPart.plain_of_accepts {part : NumberPart} {letters : List Char}
    (accepted : part.accepts letters = true) : '_' ∉ letters := by
  induction letters generalizing part with
  | nil => exact List.not_mem_nil
  | cons letter rest ih =>
    rw [accepts] at accepted
    split at accepted
    · next more next =>
      intro mem
      rcases List.mem_cons.mp mem with rfl | inside
      · cases part <;> cases next
      · exact ih accepted inside
    · cases accepted

/-- A number begins with a digit, and behind a zero in front there is no other digit. -/
theorem NumberPart.leading_digit {letters : List Char} (accepted : sign.accepts letters = true) :
    ∃ first rest, letters = first :: rest ∧ first.isDigit = true ∧
      (first = '0' → ∀ letter ∈ rest.head?, letter = '.' ∨ letter = 'e' ∨ letter = 'E') := by
  rcases letters with _ | ⟨first, rest⟩
  · cases accepted
  refine ⟨first, rest, rfl, ?_⟩
  rw [accepts, next] at accepted
  by_cases zero : first = '0'
  · subst zero
    refine ⟨rfl, ?_⟩
    rintro - letter leads
    obtain ⟨rest, rfl⟩ := List.head?_eq_some_iff.mp leads
    change zero.accepts (letter :: rest) = true at accepted
    rw [accepts, next] at accepted
    grind
  · rw [if_neg (by simpa using zero)] at accepted
    refine ⟨?_, fun same => absurd same zero⟩
    grind [unexpected]

end Json

namespace Document

/-- The text of a number has at most a minus sign in front of its letters. -/
theorem exists_unsigned_part {text : String} (number : isNumber text = true) :
    ∃ letters, Json.NumberPart.sign.accepts letters = true ∧
      (text.toList = letters ∨ text.toList = '-' :: letters) := by
  rw [isNumber] at number
  split at number
  · next letters spelled => exact ⟨letters, number, .inr spelled⟩
  · exact ⟨_, number, .inl rfl⟩

theorem unsigned?_of_digits {letters : List Char} (accepted : Json.NumberPart.sign.accepts letters = true)
    (all : ∀ letter ∈ letters, letter.isDigit = true) :
    Text.unsigned? letters = if Nat.ofDigitChars 10 letters 0 < 2 ^ 64 then
      some (.ofNat (Nat.ofDigitChars 10 letters 0)) else none := by
  obtain ⟨first, rest, rfl, digit, behind⟩ := Json.NumberPart.leading_digit accepted
  by_cases zero : first = '0'
  · subst zero
    cases rest with
    | nil => rfl
    | cons letter rest =>
      have digit := all letter (by simp)
      rcases behind rfl letter rfl with rfl | rfl | rfl <;> cases digit
  · exact Text.unsigned?_decimal zero all

theorem unsigned?_of_nondigit {letters : List Char} (accepted : Json.NumberPart.sign.accepts letters = true)
    (mem : letter ∈ letters) (other : letter.isDigit = false) : Text.unsigned? letters = none := by
  have plain : letter ≠ '_' := fun same => Json.NumberPart.plain_of_accepts accepted (same ▸ mem)
  obtain ⟨first, rest, rfl, digit, behind⟩ := Json.NumberPart.leading_digit accepted
  by_cases zero : first = '0'
  · subst zero
    have inside : letter ∈ rest := by
      rcases List.mem_cons.mp mem with rfl | inside
      · cases other
      · exact inside
    have octal : Text.splitBase ('0' :: rest) = (8, rest) := by
      rcases rest with _ | ⟨mark, _ | ⟨_, _⟩⟩
      · rfl
      · rfl
      · rcases behind rfl mark rfl with rfl | rfl | rfl <;> rfl
    rw [Text.unsigned?, octal]
    dsimp only
    rw [Text.accumulate_eq_none (by decide) inside other plain]
  · rw [Text.unsigned?, Text.splitBase_of_nonzero zero]
    dsimp only
    rw [Text.accumulate_eq_none (by decide) mem other plain]

theorem integerLiteral?_of_unsigned {text : String}
    (accepted : Json.NumberPart.sign.accepts text.toList = true) :
    integerLiteral? text = (Text.unsigned? text.toList).map UInt64.toInt64 := by
  obtain ⟨first, rest, spelled, digit, -⟩ := Json.NumberPart.leading_digit accepted
  have bare : Text.splitSign text.toList = (false, text.toList) := by
    rw [spelled]
    unfold Text.splitSign
    split
    · next same => exact absurd digit ((List.cons.inj same).1 ▸ Bool.false_ne_true)
    · next same => exact absurd digit ((List.cons.inj same).1 ▸ Bool.false_ne_true)
    · rfl
  rw [integerLiteral?, Text.signed?, bare]
  dsimp only
  cases Text.unsigned? text.toList with
  | none => rfl
  | some size => by_cases upper : 9223372036854775808 ≤ size <;> simp [upper]

/-- Behind a minus sign only the signed reader is left. -/
theorem integerLiteral?_of_minus {text : String} (spelled : text.toList = '-' :: letters) :
    integerLiteral? text = (Text.unsigned? letters).bind fun size =>
      if 9223372036854775808 < size then none else some (-size.toInt64) := by
  have refused : Text.unsigned? ('-' :: letters) = none := rfl
  have minus : Text.splitSign ('-' :: letters) = (true, letters) := rfl
  rw [integerLiteral?, Text.signed?, spelled, refused, minus]
  dsimp only
  cases Text.unsigned? letters with
  | none => rfl
  | some size => by_cases above : 9223372036854775808 < size <;> simp [above]

/-- A number without a sign is read if all its letters are digits and their number fits a word. -/
theorem unsigned?_eq_some_iff {letters : List Char} (accepted : Json.NumberPart.sign.accepts letters = true) :
    Text.unsigned? letters = some word ↔
      (∀ letter ∈ letters, letter.isDigit = true) ∧ Nat.ofDigitChars 10 letters 0 = word.toNat := by
  by_cases all : ∀ letter ∈ letters, letter.isDigit = true
  · rw [unsigned?_of_digits accepted all, Option.ite_none_right_eq_some, Option.some_inj]
    constructor
    · rintro ⟨fits, rfl⟩
      exact ⟨all, (UInt64.toNat_ofNat_of_lt' fits).symm⟩
    · rintro ⟨-, same⟩
      exact ⟨same ▸ word.toNat_lt, by rw [same, UInt64.ofNat_toNat]⟩
  · obtain ⟨letter, mem, other⟩ : ∃ letter ∈ letters, letter.isDigit = false := by simpa using all
    rw [unsigned?_of_nondigit accepted mem other]
    exact ⟨nofun, fun ⟨digits, _⟩ => absurd digits all⟩

theorem toInt64_ofNat (number : Nat) : (UInt64.ofNat number).toInt64 = Int64.ofInt number :=
  Int64.ofInt_eq_ofNat.symm

theorem integerLiteral?_unsigned_iff {text : String}
    (accepted : Json.NumberPart.sign.accepts text.toList = true) : integerLiteral? text = some value ↔
      ∃ z, Text.Spells text.toList z ∧ -2 ^ 63 ≤ z ∧ z < 2 ^ 64 ∧ Int64.ofInt z = value := by
  obtain ⟨first, rest, led, digit, -⟩ := Json.NumberPart.leading_digit accepted
  rw [integerLiteral?_of_unsigned accepted, Option.map_eq_some_iff]
  constructor
  · rintro ⟨word, read, rfl⟩
    obtain ⟨all, same⟩ := (unsigned?_eq_some_iff accepted).mp read
    have bound := word.toNat_lt
    refine ⟨_, .plain (led ▸ List.cons_ne_nil first rest) all, by omega, by omega, ?_⟩
    rw [same, ← toInt64_ofNat, UInt64.ofNat_toNat]
  · rintro ⟨z, spells, least, most, rfl⟩
    generalize text.toList = letters at *
    cases spells with
    | plain _ all =>
      have fits : Nat.ofDigitChars 10 letters 0 < 2 ^ 64 := by omega
      have worth := UInt64.toNat_ofNat_of_lt' fits
      exact ⟨_, (unsigned?_eq_some_iff accepted).mpr ⟨all, worth.symm⟩, toInt64_ofNat _⟩
    | negative =>
      obtain ⟨rfl, -⟩ := List.cons.inj led
      cases digit

theorem integerLiteral?_minus_iff {text : String} (spelled : text.toList = '-' :: letters)
    (accepted : Json.NumberPart.sign.accepts letters = true) : integerLiteral? text = some value ↔
      ∃ z, Text.Spells text.toList z ∧ -2 ^ 63 ≤ z ∧ z < 2 ^ 64 ∧ Int64.ofInt z = value := by
  obtain ⟨first, rest, led, -⟩ := Json.NumberPart.leading_digit accepted
  have above (word : UInt64) : 9223372036854775808 < word ↔ 2 ^ 63 < word.toNat := UInt64.lt_iff_toNat_lt
  rw [integerLiteral?_of_minus spelled, spelled, Option.bind_eq_some_iff]
  constructor
  · rintro ⟨word, read, kept⟩
    obtain ⟨all, same⟩ := (unsigned?_eq_some_iff accepted).mp read
    obtain ⟨low, kept⟩ := Option.ite_none_left_eq_some.mp kept
    rw [above] at low
    refine ⟨_, .negative (led ▸ List.cons_ne_nil first rest) all, by omega, by omega, ?_⟩
    rw [← Option.some.inj kept, same, Int64.ofInt_neg, ← toInt64_ofNat, UInt64.ofNat_toNat]
  · rintro ⟨z, spells, least, -, rfl⟩
    cases spells with
    | plain _ all => cases all '-' List.mem_cons_self
    | negative _ all =>
      have fits : Nat.ofDigitChars 10 letters 0 < 2 ^ 64 := by omega
      have worth := UInt64.toNat_ofNat_of_lt' fits
      refine ⟨_, (unsigned?_eq_some_iff accepted).mpr ⟨all, worth.symm⟩, ?_⟩
      rw [if_neg (by rw [above, worth]; omega), toInt64_ofNat, Int64.ofInt_neg]

/-- Exactly the whole numbers that a signed or an unsigned word holds are taken. -/
theorem integerLiteral?_eq_some_iff {text : String} (number : isNumber text = true) :
    integerLiteral? text = some value ↔
      ∃ z, Text.Spells text.toList z ∧ -2 ^ 63 ≤ z ∧ z < 2 ^ 64 ∧ Int64.ofInt z = value := by
  obtain ⟨letters, accepted, rfl | spelled⟩ := exists_unsigned_part number
  · exact integerLiteral?_unsigned_iff accepted
  · exact integerLiteral?_minus_iff spelled accepted

theorem readExpr_integer {structs : Ty.Structs} {node : RawNode} (kind : node.kind = "int")
    (typed : optionalType structs (positionOf node.pos.items) node.type = .ok (some ty)) :
    readExpr structs node = (integerAt (positionOf node.pos.items) node.value).map
      fun value => .number (positionOf node.pos.items) value ty := by
  obtain ⟨_, type, pos, op, value⟩ := node
  cases kind
  rw [readExpr, typed]
  cases integerAt (positionOf pos.items) value <;> rfl

/-- Let the value of a node for a whole number be any text that is a number. It is taken if it spells a
whole number that 64 bits hold, signed or unsigned, and then as the word that is congruent to it modulo
`2 ^ 64`. Every other text is refused. -/
theorem integer_literals_exact (structs : Ty.Structs) (node : RawNode) {ty : Ty} (kind : node.kind = "int")
    (typed : optionalType structs (positionOf node.pos.items) node.type = .ok (some ty))
    (number : isNumber node.value = true) :
    let position := positionOf node.pos.items
    (∀ z, Text.Spells node.value.toList z → -2 ^ 63 ≤ z → z < 2 ^ 64 →
      ∃ value : Int64, value.toInt ≡ z [ZMOD 2 ^ 64] ∧
        readExpr structs node = .ok (.number position value ty)) ∧
    ((¬ ∃ z, Text.Spells node.value.toList z ∧ -2 ^ 63 ≤ z ∧ z < 2 ^ 64) →
      readExpr structs node = refuse position (.badInteger node.value)) := by
  dsimp only
  rw [readExpr_integer kind typed, integerAt]
  constructor
  · intro z spells low high
    refine ⟨Int64.ofInt z, ?_, ?_⟩
    · rw [Int64.toInt_ofInt]
      exact Int.bmod_emod
    · rw [(integerLiteral?_eq_some_iff number).mpr ⟨z, spells, low, high, rfl⟩]
      rfl
  · intro other
    have none : integerLiteral? node.value = none := by
      refine Option.eq_none_iff_forall_ne_some.mpr fun value taken => other ?_
      obtain ⟨z, spells, low, high, -⟩ := (integerLiteral?_eq_some_iff number).mp taken
      exact ⟨z, spells, low, high⟩
    rw [none]
    rfl

/-- The largest unsigned word is taken, as minus one. One more is refused, and so is an exponent. -/
theorem integer_literals_exact_edges :
    (∃ value : Int64, value.toInt ≡ 2 ^ 64 - 1 [ZMOD 2 ^ 64] ∧
      readExpr [] { kind := "int", type := "u64", value := "18446744073709551615" } =
        .ok (.number {} value (.prim .u64))) ∧
    readExpr [] { kind := "int", type := "u64", value := "18446744073709551616" } =
      refuse {} (.badInteger "18446744073709551616") ∧
    readExpr [] { kind := "int", type := "u64", value := "1e3" } = refuse {} (.badInteger "1e3") := by
  have typed : optionalType [] {} "u64" = .ok (some (.prim .u64)) := by with_unfolding_all rfl
  have largest := (integer_literals_exact []
    { kind := "int", type := "u64", value := "18446744073709551615" } rfl typed (by decide +kernel)).1
    _ (.plain (by decide) (List.all_eq_true.mp (by decide +kernel))) (by decide +kernel) (by decide +kernel)
  have above := (integer_literals_exact []
    { kind := "int", type := "u64", value := "18446744073709551616" } rfl typed (by decide +kernel)).2
  have exponent := (integer_literals_exact [] { kind := "int", type := "u64", value := "1e3" } rfl typed
    (by decide +kernel)).2
  refine ⟨largest, above ?_, exponent ?_⟩
  · rintro ⟨z, spells, _, high⟩
    generalize letters : "18446744073709551616".toList = text at spells
    cases spells with
    | plain =>
      have worth : Nat.ofDigitChars 10 "18446744073709551616".toList 0 = 2 ^ 64 := by decide +kernel
      rw [← letters, worth] at high
      exact absurd high (by decide)
    | negative => cases letters
  · rintro ⟨z, spells, _⟩
    generalize letters : "1e3".toList = text at spells
    cases spells with
    | plain _ all =>
      subst letters
      cases all 'e' (by decide)
    | negative => cases letters

end Document
end Nasm64
