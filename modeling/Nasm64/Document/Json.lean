import Nasm64.Text.Quoted

/-! JSON texts and the values they spell. Numbers and strings are kept as they are spelled. -/
namespace Nasm64

/-- Members stand in the order of the text, repeated keys included. A string is what stands between
the quotes, with its escapes. -/
inductive Json where
  | null
  | bool (value : Bool)
  | number (text : String)
  | string (spelled : String)
  | array (items : List Json)
  | object (members : List (String × Json))
deriving Repr, Inhabited

namespace Json

inductive Expected where
  | value
  | key
  | afterKey
  | afterMember
  | afterItem
  | inString
  | inEscape
  | inCodePoint
  | inNumber
  | inFraction
  | inExponent
  | inLiteral (literal : String) (next : Char)
  | depth
deriving DecidableEq, Repr

def Expected.message : Expected → String
  | value => "looking for beginning of value"
  | key => "looking for beginning of object key string"
  | afterKey => "after object key"
  | afterMember => "after object key:value pair"
  | afterItem => "after array element"
  | inString => "in string literal"
  | inEscape => "in string escape code"
  | inCodePoint => "in \\u hexadecimal character escape"
  | inNumber => "in numeric literal"
  | inFraction => "after decimal point in numeric literal"
  | inExponent => "in exponent of numeric literal"
  | inLiteral literal next =>
    "in literal " ++ literal ++ " (expecting '" ++ String.singleton next ++ "')"
  | depth => "exceeded max depth"

inductive SyntaxError where
  | unexpected (found : Char) (expected : Expected)
  /-- The text is blank. -/
  | missing
  /-- The text ends within a value. -/
  | truncated
deriving DecidableEq, Repr

/-- A character as messages show it, by the first byte of its encoding. -/
def foundText (found : Char) : String :=
  if found == '\'' then "'\\''"
  else if found == '"' then "'\"'"
  else
    let first := (String.singleton found).toUTF8.data.toList.head?.elim found fun byte =>
      Char.ofNat byte.toNat
    "'" ++ String.ofList (Text.quoteChar first) ++ "'"

def SyntaxError.message : SyntaxError → String
  | unexpected found expected => "invalid character " ++ foundText found ++ " " ++ expected.message
  | missing => "EOF"
  | truncated => "unexpected EOF"

/-- An enclosing array or object, with what was read of it so far, the latest first. -/
inductive Enclosing where
  | array (items : List Json)
  | object (members : List (String × Json)) (key : String)
deriving Repr

inductive NumberPart where
  | sign | zero | whole | point | fraction | exponentMark | exponentSign | exponent
deriving DecidableEq, Repr

/-- What may come next. Collected characters stand the latest first. -/
inductive Mode where
  | value
  | firstItem
  | key (first : Bool)
  | colon
  | after
  | string (isKey : Bool) (raw : List Char)
  | escape (isKey : Bool) (raw : List Char)
  | codePoint (isKey : Bool) (raw : List Char) (remaining : Nat)
  | number (part : NumberPart) (digits : List Char)
  | literal (name : String) (rest : List Char) (value : Json)
deriving Repr

structure State where
  mode : Mode := .value
  enclosing : List Enclosing := []
deriving Repr

inductive Progress where
  | reading (state : State)
  | done (value : Json)
deriving Repr

def maxDepth : Nat := 10000

def isSpace (c : Char) : Bool := c == ' ' || c == '\t' || c == '\r' || c == '\n'

def hexValue? (c : Char) : Option Nat :=
  if '0' ≤ c && c ≤ '9' then some (c.toNat - '0'.toNat)
  else if 'a' ≤ c && c ≤ 'f' then some (c.toNat - 'a'.toNat + 10)
  else if 'A' ≤ c && c ≤ 'F' then some (c.toNat - 'A'.toNat + 10)
  else none

def unit (a b c d : Char) : Nat :=
  [a, b, c, d].foldl (fun value digit => value * 16 + (hexValue? digit).getD 0) 0

def isHigh (code : Nat) : Bool := 0xD800 ≤ code && code < 0xDC00

def isLow (code : Nat) : Bool := 0xDC00 ≤ code && code < 0xE000

def joinPair (high low : Nat) : Nat := 0x10000 + (high - 0xD800) * 0x400 + (low - 0xDC00)

/-- Half a pair of surrogates stands for the replacement character. -/
def unitChar (code : Nat) : Char :=
  if isHigh code || isLow code then '�' else Char.ofNat code

def simpleEscape (c : Char) : Char :=
  match c with
  | 'b' => '\x08'
  | 'f' => '\x0c'
  | 'n' => '\n'
  | 'r' => '\r'
  | 't' => '\t'
  | _ => c

/-- Replaces the escapes of a string. `pending` is half a pair that waits for the other half. -/
def unescapeFrom (pending : Option Nat) : List Char → List Char
  | '\\' :: 'u' :: a :: b :: c :: d :: rest =>
    let code := unit a b c d
    match pending with
    | some high =>
      if isLow code then Char.ofNat (joinPair high code) :: unescapeFrom none rest
      else if isHigh code then '�' :: unescapeFrom (some code) rest
      else '�' :: Char.ofNat code :: unescapeFrom none rest
    | none =>
      if isHigh code then unescapeFrom (some code) rest
      else unitChar code :: unescapeFrom none rest
  | '\\' :: c :: rest => pending.toList.map unitChar ++ simpleEscape c :: unescapeFrom none rest
  | c :: rest => pending.toList.map unitChar ++ c :: unescapeFrom none rest
  | [] => pending.toList.map unitChar

def unescape (spelled : String) : String := String.ofList (unescapeFrom none spelled.toList)

def complete (value : Json) : List Enclosing → Progress
  | [] => .done value
  | .array items :: outer => .reading ⟨.after, .array (value :: items) :: outer⟩
  | .object members key :: outer => .reading ⟨.after, .object ((key, value) :: members) key :: outer⟩

def unexpected {α : Type} (found : Char) (expected : Expected) : Except SyntaxError α :=
  .error (.unexpected found expected)

def enter (found : Char) (mode : Mode) (inner : Enclosing) (outer : List Enclosing) :
    Except SyntaxError Progress :=
  if outer.length < maxDepth then .ok (.reading ⟨mode, inner :: outer⟩)
  else unexpected found .depth

def startValue (c : Char) (enclosing : List Enclosing) : Except SyntaxError Progress :=
  let go := fun mode => .ok (.reading ⟨mode, enclosing⟩)
  match c with
  | '\x7b' => enter c (.key true) (.object [] "") enclosing
  | '[' => enter c .firstItem (.array []) enclosing
  | '"' => go (.string false [])
  | '-' => go (.number .sign [c])
  | '0' => go (.number .zero [c])
  | 't' => go (.literal "true" "rue".toList (.bool true))
  | 'f' => go (.literal "false" "alse".toList (.bool false))
  | 'n' => go (.literal "null" "ull".toList .null)
  | _ =>
    if isSpace c then go .value
    else if '1' ≤ c && c ≤ '9' then go (.number .whole [c])
    else unexpected c .value

def continueAfter (c : Char) (enclosing : List Enclosing) : Except SyntaxError Progress :=
  if isSpace c then .ok (.reading ⟨.after, enclosing⟩)
  else match enclosing with
    | [] => unexpected c .value
    | .array items :: outer =>
      if c == ',' then .ok (.reading ⟨.value, enclosing⟩)
      else if c == ']' then .ok (complete (.array items.reverse) outer)
      else unexpected c .afterItem
    | .object members _ :: outer =>
      if c == ',' then .ok (.reading ⟨.key false, enclosing⟩)
      else if c == '\x7d' then .ok (complete (.object members.reverse) outer)
      else unexpected c .afterMember

/-- The part of a number that a further character leads to, or nothing when the number ends before
it. -/
def NumberPart.next (part : NumberPart) (c : Char) : Except SyntaxError (Option NumberPart) :=
  let isMark := c == 'e' || c == 'E'
  match part with
  | sign =>
    if c == '0' then .ok (some zero)
    else if c.isDigit then .ok (some whole)
    else Json.unexpected c .inNumber
  | zero =>
    if c == '.' then .ok (some point) else if isMark then .ok (some exponentMark) else .ok none
  | whole =>
    if c.isDigit then .ok (some whole)
    else if c == '.' then .ok (some point)
    else if isMark then .ok (some exponentMark)
    else .ok none
  | point => if c.isDigit then .ok (some fraction) else Json.unexpected c .inFraction
  | fraction =>
    if c.isDigit then .ok (some fraction) else if isMark then .ok (some exponentMark) else .ok none
  | exponentMark =>
    if c == '+' || c == '-' then .ok (some exponentSign)
    else if c.isDigit then .ok (some exponent)
    else Json.unexpected c .inExponent
  | exponentSign => if c.isDigit then .ok (some exponent) else Json.unexpected c .inExponent
  | exponent => if c.isDigit then .ok (some exponent) else .ok none

def NumberPart.isComplete : NumberPart → Bool
  | zero | whole | fraction | exponent => true
  | _ => false

/-- The letters continue a number up to its end. -/
def NumberPart.accepts (part : NumberPart) : List Char → Bool
  | [] => part.isComplete
  | letter :: rest =>
    match part.next letter with
    | .ok (some more) => more.accepts rest
    | _ => false

def numberOf (digits : List Char) : Json := .number (String.ofList digits.reverse)

def closeString (isKey : Bool) (raw : List Char) (enclosing : List Enclosing) : Progress :=
  let spelled := String.ofList raw.reverse
  match isKey, enclosing with
  | true, .object members _ :: outer => .reading ⟨.colon, .object members (unescape spelled) :: outer⟩
  | _, _ => complete (.string spelled) enclosing

def step (state : State) (c : Char) : Except SyntaxError Progress :=
  let enclosing := state.enclosing
  let go := fun mode => Except.ok (Progress.reading ⟨mode, enclosing⟩)
  match state.mode with
  | .value => startValue c enclosing
  | .firstItem =>
    if isSpace c then go .firstItem
    else if c == ']' then .ok (complete (.array []) enclosing.tail)
    else startValue c enclosing
  | .key first =>
    if isSpace c then go (.key first)
    else if first && c == '\x7d' then .ok (complete (.object []) enclosing.tail)
    else if c == '"' then go (.string true [])
    else unexpected c .key
  | .colon =>
    if isSpace c then go .colon else if c == ':' then go .value else unexpected c .afterKey
  | .after => continueAfter c enclosing
  | .string isKey raw =>
    if c == '"' then .ok (closeString isKey raw enclosing)
    else if c == '\\' then go (.escape isKey (c :: raw))
    else if c.toNat < 0x20 then unexpected c .inString
    else go (.string isKey (c :: raw))
  | .escape isKey raw =>
    if c == 'u' then go (.codePoint isKey (c :: raw) 4)
    else if "bfnrt\\/\"".toList.contains c then go (.string isKey (c :: raw))
    else unexpected c .inEscape
  | .codePoint isKey raw remaining =>
    if (hexValue? c).isNone then unexpected c .inCodePoint
    else if remaining ≤ 1 then go (.string isKey (c :: raw))
    else go (.codePoint isKey (c :: raw) (remaining - 1))
  | .number part digits => do
    match ← part.next c with
    | some part => go (.number part (c :: digits))
    | none =>
      match complete (numberOf digits) enclosing with
      | .done value => .ok (.done value)
      | .reading state => continueAfter c state.enclosing
  | .literal name rest value =>
    match rest with
    | [] => .ok (complete value enclosing)
    | next :: rest =>
      if c != next then unexpected c (.inLiteral name next)
      else if rest.isEmpty then .ok (complete value enclosing)
      else go (.literal name rest value)

def finish (state : State) : Except SyntaxError Json :=
  match state.enclosing, state.mode with
  | [], .value => .error .missing
  | [], .number part digits =>
    if part.isComplete then .ok (numberOf digits) else .error .truncated
  | _, _ => .error .truncated

def readFrom (state : State) : List Char → Except SyntaxError Json
  | [] => finish state
  | c :: rest =>
    match step state c with
    | .error error => .error error
    | .ok (.done value) => .ok value
    | .ok (.reading state) => readFrom state rest

/-- The first value of a text. What follows it is not looked at. -/
def read (text : String) : Except SyntaxError Json := readFrom {} text.toList

end Json
end Nasm64
