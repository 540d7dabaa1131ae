import Nasm64.Double.Basic
import Nasm64.Text.Decimal

/-! Doubles from decimal text. -/
namespace Nasm64

/-- A decimal numeral: its sign, its digits as one whole number, and a power of ten. -/
structure Decimal where
  negative : Bool
  digits : Nat
  exponent : Int
deriving DecidableEq, Repr

namespace Decimal

def exponentLimit : Nat := 10000

/-- The value of the leading digits of an exponent, up to the one that reaches the limit. -/
def exponentValue? (digits : List Char) : Option Nat :=
  if !digits.isEmpty && digits.all Char.isDigit then
    some (digits.foldl
      (fun value digit =>
        if value < exponentLimit then value * 10 + (digit.toNat - '0'.toNat) else value) 0)
  else none

def signedExponent? : List Char → Option Int
  | '-' :: digits => (exponentValue? digits).map fun value => -Int.ofNat value
  | '+' :: digits => (exponentValue? digits).map Int.ofNat
  | digits => (exponentValue? digits).map Int.ofNat

def exponent? : List Char → Option Int
  | [] => some 0
  | mark :: rest => if mark == 'e' || mark == 'E' then signedExponent? rest else none

/-- Reads the whole part, the fraction and the exponent of an unsigned numeral. -/
def unsigned? (negative : Bool) (text : List Char) : Option Decimal := do
  let whole := text.takeWhile Char.isDigit
  let (places, rest) :=
    match text.dropWhile Char.isDigit with
    | '.' :: rest => (rest.takeWhile Char.isDigit, rest.dropWhile Char.isDigit)
    | rest => ([], rest)
  let digits ← Text.natural? (whole ++ places)
  let exponent ← exponent? rest
  return ⟨negative, digits, exponent - places.length⟩

def parse? : List Char → Option Decimal
  | '-' :: text => unsigned? true text
  | text => unsigned? false text

def digitCount (value : Nat) : Nat := (Nat.toDigits 10 value).length

/-- The nearest double, or nothing when the numeral is beyond the largest one. Numerals of more
than 310 places before the point are, and those below the 330th place after it round to zero. -/
def toDouble? (numeral : Decimal) : Option Double :=
  if numeral.digits == 0 then some (Double.ofCode numeral.negative 0)
  else
    let magnitude := digitCount numeral.digits + numeral.exponent
    if 310 < magnitude then none
    else if magnitude < -330 then some (Double.ofCode numeral.negative 0)
    else
      let code :=
        if 0 ≤ numeral.exponent then
          BinaryFormat.double.round (numeral.digits * Nat.pow 10 numeral.exponent.toNat) 1
        else BinaryFormat.double.round numeral.digits (Nat.pow 10 (-numeral.exponent).toNat)
      if code == BinaryFormat.double.infinity then none
      else some (Double.ofCode numeral.negative code)

end Decimal

def Double.parse? (text : String) : Option Double :=
  (Decimal.parse? text.toList).bind Decimal.toDouble?

end Nasm64
