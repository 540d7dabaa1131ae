/-! Whole numbers whose base stands in front of their digits, and how they fill a word. -/
namespace Nasm64.Text

def digit? (letter : Char) : Option UInt64 :=
  if letter.isDigit then some (letter.toNat - '0'.toNat).toUInt64
  else if letter.isAlpha then some (letter.toLower.toNat - 'a'.toNat + 10).toUInt64
  else none

/-- The base and what is left to read. A zero alone makes the rest octal. -/
def splitBase : List Char → UInt64 × List Char
  | '0' :: mark :: digit :: rest =>
    match mark.toLower with
    | 'b' => (2, digit :: rest)
    | 'o' => (8, digit :: rest)
    | 'x' => (16, digit :: rest)
    | _ => (8, mark :: digit :: rest)
  | '0' :: rest => (8, rest)
  | letters => (10, letters)

/-- Reads digits behind `value`, until the word is full or a letter is no digit of the base. -/
def accumulate (base : UInt64) (value : UInt64) : List Char → Option UInt64
  | [] => some value
  | letter :: rest =>
    if letter == '_' then accumulate base value rest
    else match digit? letter with
      | none => none
      | some digit =>
        if base ≤ digit then none
        else if 18446744073709551615 / base + 1 ≤ value then none
        else
          let shifted := value * base
          if shifted + digit < shifted then none else accumulate base (shifted + digit) rest

/-- Each underscore has a digit, or the mark of the base, on both sides. -/
def separates (behindDigit : Bool) : List Char → Bool
  | [] => behindDigit
  | letter :: rest =>
    if letter == '_' then behindDigit && separates false rest else separates true rest

def unsigned? (letters : List Char) : Option UInt64 :=
  let (base, digits) := splitBase letters
  match accumulate base 0 digits with
  | some value => if separates false letters then some value else none
  | none => none

def splitSign : List Char → Bool × List Char
  | '-' :: digits => (true, digits)
  | '+' :: digits => (false, digits)
  | digits => (false, digits)

def signed? (letters : List Char) : Option Int64 :=
  let (isNegative, digits) := splitSign letters
  match unsigned? digits with
  | none => none
  | some size =>
    if !isNegative && 9223372036854775808 ≤ size then none
    else if isNegative && 9223372036854775808 < size then none
    else some (if isNegative then -size.toInt64 else size.toInt64)

end Nasm64.Text
