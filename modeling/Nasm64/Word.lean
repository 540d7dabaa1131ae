/-! Arithmetic on 64-bit words: alignment, powers of two and narrowing. -/
namespace Nasm64.Word

/-- The next multiple of `step`, the word itself when the step is at most one. -/
def alignUp (value step : Int64) : Int64 :=
  if step ≤ 1 then value else (value + step - 1) / step * step

/-- Doubles `power` at most `rounds` times until it reaches `bound`. -/
def doubleTo (bound : Int64) : Nat → Int64 → Option Int64
  | 0, _ => none
  | rounds + 1, power =>
    if power < bound then doubleTo bound rounds (power <<< 1) else some power

/-- The smallest power of two that is at least `bound`. Above `2 ^ 62` no word is one, and
doubling never gets there. -/
def nextPowerOfTwo? (bound : Int64) : Option Int64 := doubleTo bound 64 1

/-- The word whose only bit is the one at `place`. -/
def oneAt (place : Nat) : Int64 := .ofBitVec (1#64 <<< place)

/-- The value that `size` bytes of `value` hold, read back with or without a sign. A size whose
number of bits is no less than the word's, negative sizes among them, keeps the word. -/
def fold (value : Int64) (size : Int) (signed : Bool) : Int64 :=
  let bits := (size * 8 % 18446744073709551616).toNat
  if 64 ≤ bits then value
  else
    let low := value &&& (oneAt bits - 1)
    if signed && low &&& oneAt (bits - 1) != 0 then low - oneAt bits else low

end Nasm64.Word
