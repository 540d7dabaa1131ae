/-! Rounding of exact fractions to the binary interchange formats, nearest first and ties to even. -/
namespace Nasm64

/-- A binary format by the widths of its fraction and exponent fields. -/
structure BinaryFormat where
  fractionBits : Nat
  exponentBits : Nat

namespace BinaryFormat

def single : BinaryFormat := ⟨23, 8⟩

def double : BinaryFormat := ⟨52, 11⟩

def leastExponent (format : BinaryFormat) : Int := 2 - Nat.pow 2 (format.exponentBits - 1)

/-- The code of infinity, without the sign. Every finite code is below it. -/
def infinity (format : BinaryFormat) : Nat :=
  (Nat.pow 2 format.exponentBits - 1) * Nat.pow 2 format.fractionBits

def signBit (format : BinaryFormat) : Nat := Nat.pow 2 (format.fractionBits + format.exponentBits)

end BinaryFormat

/-- The quotient rounded to the nearest whole number, a tie to the even one. -/
def divideToEven (numerator denominator : Nat) : Nat :=
  let quotient := numerator / denominator
  let twice := 2 * (numerator % denominator)
  if twice < denominator || (twice == denominator && quotient % 2 == 0) then quotient
  else quotient + 1

/-- The largest `e` with `2 ^ e ≤ numerator / denominator`, for a positive fraction. -/
def binaryExponent (numerator denominator : Nat) : Int :=
  let guess := (Nat.log2 numerator : Int) - Nat.log2 denominator
  let below :=
    if 0 ≤ guess then numerator < denominator * Nat.pow 2 guess.toNat
    else numerator * Nat.pow 2 (-guess).toNat < denominator
  if below then guess - 1 else guess

/-- The code of the nearest number to a fraction, without the sign. The exponent field and the
fraction are one number, so a carry out of the fraction lands in the exponent. -/
def BinaryFormat.round (format : BinaryFormat) (numerator denominator : Nat) : Nat :=
  if numerator == 0 then 0
  else
    let exponent := max (binaryExponent numerator denominator) format.leastExponent
    let unit := exponent - format.fractionBits
    let significand :=
      if 0 ≤ unit then divideToEven numerator (denominator * Nat.pow 2 unit.toNat)
      else divideToEven (numerator * Nat.pow 2 (-unit).toNat) denominator
    min ((exponent - format.leastExponent).toNat * Nat.pow 2 format.fractionBits + significand)
      format.infinity

end Nasm64
