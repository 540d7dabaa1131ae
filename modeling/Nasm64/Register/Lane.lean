import Nasm64.Register.Basic

/-! The four argument lanes. Each binds a general register and a float register. -/
namespace Nasm64

structure Lane where
  general : Family
  float : Family
deriving DecidableEq, Repr

namespace Lane

def all : List Lane :=
  [⟨.rcx, .float 0⟩, ⟨.rdx, .float 1⟩, ⟨.r8, .float 2⟩, ⟨.r9, .float 3⟩]

def find? (family : Family) : Option (Nat × Lane) :=
  (all.zipIdx.find? fun entry => entry.1.general == family || entry.1.float == family).map
    fun entry => (entry.2, entry.1)

end Lane

namespace Register

/-- The float register of the same lane. Width four is kept and any other becomes eight. -/
def toFloat (register : Register) : Except Error Register :=
  if register.isFloat then .ok register
  else match Lane.find? register.family with
    | some (_, lane) => .ok ⟨lane.float, if register.size == 4 then 4 else 8⟩
    | none => .error (.noLane register)

def toGeneral (register : Register) : Except Error Register :=
  if !register.isFloat then .ok register
  else match Lane.find? register.family with
    | some (_, lane) => .ok ⟨lane.general, 8⟩
    | none => .error (.noLane register)

end Register
end Nasm64
