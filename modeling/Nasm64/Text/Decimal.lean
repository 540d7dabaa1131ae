/-! Decimal and hexadecimal spellings of whole numbers. -/
namespace Nasm64.Text

def natural? (digits : List Char) : Option Nat :=
  if !digits.isEmpty && digits.all Char.isDigit then
    some (digits.foldl (fun value digit => value * 10 + (digit.toNat - '0'.toNat)) 0)
  else none

def integer? : List Char → Option Int
  | '-' :: digits => (natural? digits).map fun value => -Int.ofNat value
  | '+' :: digits => (natural? digits).map Int.ofNat
  | digits => (natural? digits).map Int.ofNat

def fitsWord (value : Int) : Bool :=
  -9223372036854775808 ≤ value && value ≤ 9223372036854775807

def word? (digits : List Char) : Option Int64 :=
  match integer? digits with
  | some value => if fitsWord value then some (Int64.ofInt value) else none
  | none => none

/-- The last `width` hexadecimal digits of `value`, with leading zeros. -/
def hexDigits : Nat → Nat → List Char
  | 0, _ => []
  | width + 1, value => hexDigits width (value / 16) ++ [Nat.digitChar (value % 16)]

def hex (width value : Nat) : String := String.ofList (hexDigits width value)

end Nasm64.Text
