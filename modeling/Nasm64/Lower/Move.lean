import Nasm64.Conversion.Lowering
import Nasm64.Lower.Basic

/-! Moves between registers, memory and constants. -/
namespace Nasm64.Lower

open Conversion (floatMove)

def move (target : Register) (source : Operand) : Code :=
  if target.isFloat then [.binary (floatMove target.size) (.reg target) source]
  else [.mov (.reg target) source]

def moveRegister (target source : Register) : Code :=
  if target.aliases source then []
  else if target.isFloat && source.isFloat then
    [.binary (floatMove target.size) (.reg target) (.reg source)]
  else if target.isFloat then [.binary .movq (.reg target) (.reg (source.resize 8))]
  else if source.isFloat then [.binary .movq (.reg (target.resize 8)) (.reg source)]
  else [.mov (.reg target) (.reg source)]

def store (target : Operand) (source : Register) : Code :=
  if source.isFloat then [.binary (floatMove source.size) target (.reg source)]
  else [.mov target (.reg source)]

def zero (register : Register) : Code :=
  if register.isFloat then [.binary .xorps (.reg register) (.reg register)]
  else [.binary .xor (.reg (register.resize 4)) (.reg (register.resize 4))]

/-- Moves the value of a fragment into a register of its own choice. -/
def settle (fragment : Lowered) (target : Register) : Lowered :=
  match fragment with
  | .inline operand => .value (move target operand) target
  | .value code source =>
    if source.aliases target then fragment
    else .value (code ++ moveRegister target (source.resize target.size)) target
  | .effect _ => fragment

/-- The widest move that fits in the remaining bytes. -/
def chunk (rest : Nat) : Nat := if 8 ≤ rest then 8 else if 4 ≤ rest then 4 else if 2 ≤ rest then 2 else 1

/-- Cuts the bytes from `start` on into units, each with its start. -/
def chunksFrom (size start : Nat) : List (Nat × Nat) :=
  if start < size then
    let unit := chunk (size - start)
    (start, unit) :: chunksFrom size (start + unit)
  else []
termination_by size - start
decreasing_by grind [chunk]

/-- A negative size stands for no bytes. -/
def chunks (size : Int64) : List (Nat × Nat) := chunksFrom size.toInt.toNat 0

def copyBytes (target source : Address) (size : Int64) : Code :=
  (chunks size).flatMap fun (start, unit) =>
    let scratch := Register.scratch.resize unit
    [.mov (.reg scratch) (.mem unit (source.advance (Int64.ofNat start))),
      .mov (.mem unit (target.advance (Int64.ofNat start))) (.reg scratch)]

def zeroBytes (target : Address) (size : Int64) : Code :=
  (chunks size).map fun (start, unit) =>
    .mov (.mem unit (target.advance (Int64.ofNat start))) (.imm 0)

/-- The register that statements and arguments evaluate values of a type into. -/
def accumulatorFor (ty : Ty) : Register :=
  if ty.isFloat then Register.floatAccumulator.resize ty.registerSize
  else Register.accumulator.resize ty.registerSize

end Nasm64.Lower
