/-! Operators and their spellings. -/
namespace Nasm64

inductive Operator where
  | add | sub | mul | div | rem
  | and | or | xor | shl | shr
  | eq | ne | lt | gt | ge | le
  | andAlso | orElse
  | not | complement
  | addressOf | cast
deriving DecidableEq, Repr, Inhabited

namespace Operator

/-- The operators that a document can spell. Taking an address and casting have node kinds of
their own. -/
def spelled : List Operator :=
  [add, sub, mul, div, rem, and, or, xor, shl, shr, eq, ne, lt, gt, ge, le, andAlso, orElse, not,
    complement]

def spelling : Operator → String
  | add => "+"
  | sub => "-"
  | mul => "*"
  | div => "/"
  | rem => "%"
  | and => "&"
  | or => "|"
  | xor => "^"
  | shl => "<<"
  | shr => ">>"
  | eq => "=="
  | ne => "!="
  | lt => "<"
  | gt => ">"
  | ge => ">="
  | le => "<="
  | andAlso => "&&"
  | orElse => "||"
  | not => "!"
  | complement => "~"
  | addressOf => "&"
  | cast => "as"

def ofSpelling? (text : String) : Option Operator := spelled.find? fun op => op.spelling == text

/-- The number of the first operator among the tokens of the language. -/
def firstCode : Nat := 13

/-- The number of an operator among the tokens of the language. -/
def code (op : Operator) : Nat :=
  firstCode + (spelled ++ [addressOf, cast]).idxOf op

def ofCode? (code : Int) : Option Operator :=
  if code < firstCode then none else (spelled ++ [addressOf, cast])[code.toNat - firstCode]?

/-- The spelling of the token of that number, a question mark when it is no operator. -/
def spellingOfCode (code : Int) : String := (ofCode? code).elim "?" spelling

def isComparison : Operator → Bool
  | eq | ne | lt | gt | ge | le => true
  | _ => false

end Operator

inductive UnaryOperator where
  | negate | not | complement
deriving DecidableEq, Repr, Inhabited

namespace UnaryOperator

def operator : UnaryOperator → Operator
  | negate => .sub
  | not => .not
  | complement => .complement

def spelling (op : UnaryOperator) : String := op.operator.spelling

def ofSpelling? (text : String) : Option UnaryOperator :=
  [negate, not, complement].find? fun op => op.spelling == text

end UnaryOperator
end Nasm64
