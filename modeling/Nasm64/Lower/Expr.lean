import Nasm64.Lower.Binary
import Nasm64.Lower.Invocation
import Nasm64.Lower.Place
import Nasm64.Lower.Prefixed

/-! The lowering of expressions, built from those of their operands. -/
namespace Nasm64

open Lower

namespace Expr

def integerLiteral? : Expr → Option Int64
  | number _ value _ => some value
  | _ => none

def boolLiteral? : Expr → Option Bool
  | bool _ value => some value
  | _ => none

def isDeref : Expr → Bool
  | deref .. => true
  | _ => false

def valueOnly (expr : Expr) (value : Lower Lowered) : Lowering where
  position := expr.position
  description := expr.describe
  type := expr.type
  isLeaf := expr.isLeaf
  value := value
  nested := value
  place := fun _ => fail expr.position (.notAddressable expr.describe)

def atPlace (expr : Expr) (place : Option Register → Lower (Code × Located)) : Lowering :=
  let node : Lowering :=
    { expr.valueOnly (fail expr.position (.notAddressable expr.describe)) with place }
  { node with value := node.load, nested := node.load }

mutual

def lowering (expr : Expr) : Lowering :=
  match expr with
  | number position value ty => expr.valueOnly (lowerNumber position value ty)
  | float _ value ty => expr.valueOnly (lowerFloat value ty)
  | bool _ value => expr.valueOnly (return lowerBool value)
  | string position text => expr.valueOnly (lowerString position text)
  | ident position name _ =>
    { expr.valueOnly (lowerVariable position name) with
      place := fun _ => placeVariable position name }
  | binary position op left right _ =>
    expr.valueOnly (lowerBinary position op left.lowering right.lowering fun _ =>
      match left, right with
      | binary _ leftOp first second _, binary _ rightOp third fourth _ =>
        some ⟨leftOp, rightOp, first.lowering, second.lowering, third.lowering, fourth.lowering⟩
      | _, _ => none)
  | unary position .negate operand =>
    expr.valueOnly
      (lowerNegate position operand.lowering (operand.constant?.map Constant.negate))
  | unary position .not operand =>
    expr.valueOnly (lowerNot position operand.lowering operand.boolLiteral?)
  | unary position .complement operand =>
    expr.valueOnly (lowerComplement position operand.lowering operand.integerLiteral?)
  | deref position pointer =>
    let node := expr.atPlace (placeDeref position pointer.lowering)
    { node with nested := node.address }
  | addressOf position place =>
    expr.valueOnly (lowerAddressOf position place.lowering place.isDeref place.isPlace)
  | cast position operand ty => expr.valueOnly (lowerCast position operand.lowering ty)
  | call position name arguments _ =>
    expr.valueOnly (lowerCall position name (lowerings arguments))
  | index position base subscript =>
    expr.atPlace
      (placeElement position base.lowering subscript.lowering subscript.integerLiteral?)
  | member position base field => expr.atPlace (placeMember position base.lowering field)
  | struct position _ _ => expr.valueOnly (fail position .misplacedStruct)
termination_by structural expr

def lowerings : List Expr → List Lowering
  | [] => []
  | expr :: rest => expr.lowering :: lowerings rest
termination_by structural exprs => exprs

end

end Expr
end Nasm64
