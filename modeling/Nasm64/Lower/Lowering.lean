import Nasm64.Lower.Move

/-! How a node is lowered, for the consumers of its value or its address. -/
namespace Nasm64

namespace Lower

/-- An address and the number of registers that stay held until it is used. -/
structure Located where
  address : Address
  held : Nat := 0
deriving DecidableEq, Repr

def release (located : Located) : Lower Unit :=
  modify fun frame => { frame with held := frame.held.drop located.held }

end Lower

open Lower in
/-- A node together with the ways to lower it. `value` takes the cheapest form. `nested` differs for
a dereference, of which it gives the address. `place` computes the address, with a register of the
caller that may serve as its base. -/
structure Lowering where
  position : Position
  description : String
  type : Ty
  isLeaf : Bool
  value : Lower Lowered
  nested : Lower Lowered
  place : Option Register → Lower (Code × Located)

namespace Lowering

open Lower

/-- Forces the value into a register, which is held meanwhile. -/
def prepare (node : Lowering) (target : Register) : Lower Lowered := do
  if !target.valid then fail node.position (.invalidTarget target)
  else
    pushRegister target
    let fragment ← node.value
    popRegister
    return settle fragment target

def finish (node : Lowering) (allowed : List Shape) (fragment : Lowered) :
    Lower (Option Operand) :=
  liftCause node.position .variance (fragment.finish .reg allowed (some node.description))

def into (node : Lowering) (target : Register) : Lower Code := do
  let fragment ← node.prepare target
  let _ ← node.finish [.value] fragment
  return fragment.code

/-- The address as a value: inline when it is a plain frame slot, and in a register otherwise. -/
def address (node : Lowering) : Lower Lowered := do
  let target ← destination node.position (.pointer node.type)
  holding target do
    let (code, located) ← node.place (some target)
    if !located.address.inRegisters then return .inline (.place located.address)
    else
      let direct := located.address.base.text == target.name &&
        located.address.displacement == 0 && located.address.index.isNone
      let load : Code := if direct then [] else [.lea target located.address]
      release located
      return .value (code ++ load) target

def decay (node : Lowering) : Lower Lowered := do
  let fragment ← node.address
  match fragment with
  | .inline operand =>
    let target ← destination node.position (.pointer node.type.target)
    return .value [.binary .lea (.reg target) operand] target
  | _ => return fragment

/-- Reads a scalar at its address, or hands back the memory operand if it needs no registers. -/
def load (node : Lowering) : Lower Lowered := do
  if node.type.isArray then node.decay
  else if !node.type.isScalar then fail node.position (.noRegisterFor node.type.text)
  else
    let target ← destination node.position node.type
    holding target do
      let hint := if target.isFloat then none else some (target.resize 8)
      let (code, located) ← node.place hint
      let operand : Operand := .mem node.type.registerSize located.address
      if !located.address.inRegisters then return .inline operand
      else
        release located
        return .value (code ++ move target operand) target

end Lowering
end Nasm64
