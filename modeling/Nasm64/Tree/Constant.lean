import Nasm64.Tree.Node

/-! Literal values, looking through a minus. -/
namespace Nasm64

inductive Constant where
  | word (value : Int64)
  | float (value : Double)
deriving DecidableEq, Repr

namespace Constant

def negate : Constant → Constant
  | word value => .word (-value)
  | float value => .float value.negate

def toDouble : Constant → Double
  | word value => Double.ofWord value
  | float value => value

end Constant

/-- The value of a literal, negated once for every minus in front of it. -/
def Expr.constant? : Expr → Option Constant
  | number _ value _ => some (.word value)
  | float _ value _ => some (.float value)
  | bool _ value => some (.word (if value then 1 else 0))
  | unary _ .negate operand => operand.constant?.map Constant.negate
  | _ => none

end Nasm64
