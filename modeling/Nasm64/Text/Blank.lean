/-! White space of every script, and the words and margins it makes. -/
namespace Nasm64.Text

def isBlank (c : Char) : Bool :=
  let code := c.toNat
  (9 ≤ code && code ≤ 13) || code == 0x20 || code == 0x85 || code == 0xA0 || code == 0x1680 ||
    (0x2000 ≤ code && code ≤ 0x200A) || code == 0x2028 || code == 0x2029 || code == 0x202F ||
    code == 0x205F || code == 0x3000

def trimLeft (text : List Char) : List Char := text.dropWhile isBlank

def trim (text : List Char) : List Char := (trimLeft (trimLeft text).reverse).reverse

theorem length_trimLeft_le (text : List Char) : (trimLeft text).length ≤ text.length :=
  (List.dropWhile_sublist _).length_le

theorem length_trim_le (text : List Char) : (trim text).length ≤ text.length := by
  have inner := length_trimLeft_le text
  have outer := length_trimLeft_le (trimLeft text).reverse
  simp only [trim, List.length_reverse] at *
  omega

/-- Adds the letters collected so far, last one first, as a word. -/
def closeWord (letters : List Char) (words : List (List Char)) : List (List Char) :=
  if letters.isEmpty then words else letters.reverse :: words

def wordsFrom (letters : List Char) : List Char → List (List Char)
  | [] => closeWord letters []
  | c :: rest =>
    if isBlank c then closeWord letters (wordsFrom [] rest) else wordsFrom (c :: letters) rest

def words (text : List Char) : List (List Char) := wordsFrom [] text

end Nasm64.Text
