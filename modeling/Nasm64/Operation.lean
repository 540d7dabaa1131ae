import Nasm64.Code.Mnemonic
import Nasm64.Operator
import Nasm64.Ty.Basic

/-! Instruction selection for binary operators. -/
namespace Nasm64

namespace Operation

inductive Family where
  | arith | mul | unsignedMul | div | rem | shift | compare | floatArith | floatCompare | logical
deriving DecidableEq, Repr, Inhabited

def Family.code : Family → Nat
  | arith => 0
  | mul => 1
  | unsignedMul => 2
  | div => 3
  | rem => 4
  | shift => 5
  | compare => 6
  | floatArith => 7
  | floatCompare => 8
  | logical => 9

end Operation

/-- `condition` sets the result of a comparison. `result` is the type of the result where it is
not that of the left operand. -/
structure Operation where
  op : Operator
  family : Operation.Family
  mnemonic : Mnemonic
  condition : Option Mnemonic := none
  isSigned : Bool := false
  result : Option Primitive := none
deriving DecidableEq, Repr, Inhabited

namespace Operation

structure Unsupported where
  op : Operator
  left : String
  right : String
deriving DecidableEq, Repr

def Unsupported.message (error : Unsupported) : String :=
  "operator '" ++ error.op.spelling ++ "' is not defined for " ++ error.left ++ " and " ++ error.right

def signedCondition? : Operator → Option Mnemonic
  | .eq => some .sete
  | .ne => some .setne
  | .lt => some .setl
  | .le => some .setle
  | .gt => some .setg
  | .ge => some .setge
  | _ => none

def unsignedCondition? : Operator → Option Mnemonic
  | .eq => some .sete
  | .ne => some .setne
  | .lt => some .setb
  | .le => some .setbe
  | .gt => some .seta
  | .ge => some .setae
  | _ => none

def comparison? (op : Operator) (family : Family) (mnemonic : Mnemonic) (isSigned : Bool)
    (condition : Option Mnemonic) : Option Operation :=
  condition.map fun condition =>
    { op, family, mnemonic, condition := some condition, isSigned, result := some .bool }

def integer? (isSigned : Bool) (op : Operator) : Option Operation :=
  match op with
  | .add => some { op, family := .arith, mnemonic := .add, isSigned }
  | .sub => some { op, family := .arith, mnemonic := .sub, isSigned }
  | .and => some { op, family := .arith, mnemonic := .and, isSigned }
  | .or => some { op, family := .arith, mnemonic := .or, isSigned }
  | .xor => some { op, family := .arith, mnemonic := .xor, isSigned }
  | .mul =>
    some (if isSigned then { op, family := .mul, mnemonic := .imul, isSigned }
      else { op, family := .unsignedMul, mnemonic := .mul, isSigned })
  | .div => some { op, family := .div, mnemonic := if isSigned then .idiv else .div, isSigned }
  | .rem => some { op, family := .rem, mnemonic := if isSigned then .idiv else .div, isSigned }
  | .shl => some { op, family := .shift, mnemonic := .shl, isSigned }
  | .shr => some { op, family := .shift, mnemonic := if isSigned then .sar else .shr, isSigned }
  | _ =>
    comparison? op .compare .cmp isSigned
      (if isSigned then signedCondition? op else unsignedCondition? op)

def float? (isDouble : Bool) (op : Operator) : Option Operation :=
  let arith (single double : Mnemonic) : Option Operation :=
    some { op, family := .floatArith, mnemonic := if isDouble then double else single,
           isSigned := true }
  match op with
  | .add => arith .addss .addsd
  | .sub => arith .subss .subsd
  | .mul => arith .mulss .mulsd
  | .div => arith .divss .divsd
  | _ =>
    comparison? op .floatCompare (if isDouble then .comisd else .comiss) false
      (unsignedCondition? op)

def bool? (op : Operator) : Option Operation :=
  match op with
  | .and | .andAlso => some { op, family := .logical, mnemonic := .and }
  | .or | .orElse => some { op, family := .logical, mnemonic := .or }
  | .xor => some { op, family := .logical, mnemonic := .xor }
  | .eq | .ne => comparison? op .compare .cmp false (unsignedCondition? op)
  | _ => none

def pointerOffset? (op : Operator) : Option Operation :=
  match op with
  | .add => some { op, family := .arith, mnemonic := .add }
  | .sub => some { op, family := .arith, mnemonic := .sub }
  | _ => none

def pointers? (op : Operator) : Option Operation :=
  match op with
  | .sub => some { op, family := .arith, mnemonic := .sub, result := some .i64 }
  | _ => comparison? op .compare .cmp false (unsignedCondition? op)

def select? (left : Scalar) (op : Operator) (right : Scalar) : Option Operation :=
  match left, right with
  | .prim left, .prim right =>
    if left.isInteger && right.isInteger && left.bytes == right.bytes then
      integer? left.isSigned op
    else if left.isFloat && left == right then float? (left == .f64) op
    else if left == .bool && right == .bool then bool? op
    else none
  | .ptr, .prim right =>
    if right == .i64 || right == .u64 then pointerOffset? op else none
  | .ptr, .ptr => pointers? op
  | .prim _, .ptr => none

def ofTypes (left : Ty) (op : Operator) (right : Ty) : Except Unsupported Operation :=
  let selected? := match left.scalar?, right.scalar? with
    | some leftScalar, some rightScalar => select? leftScalar op rightScalar
    | _, _ => none
  match selected? with
  | some operation => .ok operation
  | none => .error ⟨op, left.text, right.text⟩

def resultType (operation : Operation) (left : Ty) : Ty :=
  operation.result.elim left .prim

end Operation
end Nasm64
