/-! Lower case, as far as names and widths depend on it. -/
namespace Nasm64.Text

/-- The lower case of a character, provided it is in ASCII. Two capitals from beyond have one there. -/
def lowerChar (c : Char) : Char :=
  if c.toNat == 0x130 then 'i' else if c.toNat == 0x212A then 'k' else c.toLower

/-- Other capitals from beyond ASCII are left as they are, and so differ from every ASCII text. -/
def toLower (text : String) : String := String.ofList (text.toList.map lowerChar)

/-- Capitals of three bytes in UTF-8 whose lower case has two. -/
def shrinking : List Nat :=
  [0x1E9E, 0x2126, 0x212B, 0x2C62, 0x2C64, 0x2C6D, 0x2C6E, 0x2C6F, 0x2C70, 0x2C7E, 0x2C7F, 0xA78D,
    0xA7AA, 0xA7AB, 0xA7AC, 0xA7AD, 0xA7AE, 0xA7B0, 0xA7B1, 0xA7B2, 0xA7C5, 0xA7CB, 0xA7DC]

def lowerSize (c : Char) : Nat :=
  let code := c.toNat
  if code == 0x130 || code == 0x212A then 1
  else if shrinking.contains code then 2
  else if code == 0x23A || code == 0x23E then 3
  else c.utf8Size

def lowerBytes (text : String) : Nat := text.toList.foldl (fun total c => total + lowerSize c) 0

end Nasm64.Text
