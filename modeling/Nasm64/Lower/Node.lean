import Nasm64.Lower.Stmt

/-! Single nodes, lowered on their own. -/
namespace Nasm64

inductive Node where
  | expr (expr : Expr)
  | stmt (stmt : Stmt)
deriving Repr, Inhabited

namespace Lower

inductive Demand where
  | value
  | place
  | nested
  | register (register : Register)
  | unknown
deriving DecidableEq, Repr

end Lower

open Lower

namespace Lowering

def answer (node : Lowering) : Demand → Lower Lowered
  | .value => node.value
  | .place => node.address
  | .nested => node.nested
  | .register register => node.prepare register
  | .unknown => fail node.position .unknownDemand

end Lowering

namespace Node

def position : Node → Position
  | expr value => value.position
  | stmt value => value.position

def lowering : Node → Lowering
  | expr value => value.lowering
  | stmt value =>
    let refuse : Lower Lowered := fail value.position (.notAnExpression value.describe)
    { position := value.position
      description := value.describe
      type := .void
      isLeaf := false
      value := refuse
      nested := refuse
      place := fun _ => fail value.position (.notAddressable value.describe) }

def answer (node : Option Node) (demand : Demand) : Lower Lowered :=
  match node, demand with
  | some node, _ => node.lowering.answer demand
  | none, .unknown => fail {} .unknownDemand
  | none, .register register =>
    if register.valid then fail {} .missingExpression else fail {} (.invalidTarget register)
  | none, _ => fail {} .missingExpression

def asStatement (last : Bool) : Node → Lower Code
  | stmt value => value.lower last
  | expr value => fail value.position (.notAStatement value.describe)

end Node
end Nasm64
