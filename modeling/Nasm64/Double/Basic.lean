import Nasm64.Double.Rounding

/-! Double precision numbers as their 64 bits. -/
namespace Nasm64

structure Double where
  bits : UInt64
deriving DecidableEq, Repr, Inhabited

namespace Double

def ofCode (negative : Bool) (code : Nat) : Double :=
  ⟨UInt64.ofNat (if negative then code + BinaryFormat.double.signBit else code)⟩

def ofWord (value : Int64) : Double :=
  ofCode (value < 0) (BinaryFormat.double.round value.toInt.natAbs 1)

def negate (value : Double) : Double := ⟨value.bits ^^^ 0x8000000000000000⟩

def isNegative (value : Double) : Bool := value.bits &&& 0x8000000000000000 != 0

def exponentField (value : Double) : Nat := (value.bits >>> 52).toNat % 2048

def fractionField (value : Double) : Nat := value.bits.toNat % Nat.pow 2 52

def fraction (value : Double) : Nat × Nat :=
  if value.exponentField == 0 then (value.fractionField, Nat.pow 2 1074)
  else
    let significand := Nat.pow 2 52 + value.fractionField
    if 1075 ≤ value.exponentField then (significand * Nat.pow 2 (value.exponentField - 1075), 1)
    else (significand, Nat.pow 2 (1075 - value.exponentField))

/-- The magnitude code of the nearest single. A quiet not-a-number keeps the top of its payload. -/
def singleCode (value : Double) : Nat :=
  if value.exponentField == 2047 then
    if value.fractionField == 0 then BinaryFormat.single.infinity
    else BinaryFormat.single.infinity + (value.fractionField / Nat.pow 2 29 ||| Nat.pow 2 22)
  else
    let (numerator, denominator) := value.fraction
    BinaryFormat.single.round numerator denominator

def toSingle (value : Double) : UInt32 :=
  UInt32.ofNat
    (if value.isNegative then value.singleCode + BinaryFormat.single.signBit else value.singleCode)

end Double
end Nasm64
