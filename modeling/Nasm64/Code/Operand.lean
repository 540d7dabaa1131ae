import Nasm64.Register.Basic

/-! Memory addresses and instruction operands. -/
namespace Nasm64

/-- Where an address starts: in a register, below the frame pointer, or at a label. -/
inductive Base where
  | reg (register : Register)
  | slot (offset : Int64)
  | label (name : String)
deriving DecidableEq, Repr

def Base.text : Base → String
  | reg register => register.name
  | slot offset => "rbp - " ++ toString offset
  | label name => "rel " ++ name

structure Address where
  base : Base
  displacement : Int64 := 0
  index : Option Register := none
deriving DecidableEq, Repr

namespace Address

/-- The frame slot that starts `offset` bytes below the frame pointer. -/
def frameSlot (offset : Int64) : Address := ⟨.reg .framePointer, -offset, none⟩

def aboveStack (offset : Int64) : Address := ⟨.reg .stackPointer, offset, none⟩

def atLabel (name : String) : Address := ⟨.label name, 0, none⟩

def advance (address : Address) (bytes : Int64) : Address :=
  { address with displacement := address.displacement + bytes }

/-- The displacement with its sign apart, and nothing for none. -/
def displacementText (displacement : Int64) : String :=
  if displacement < 0 then " - " ++ toString (-displacement)
  else if 0 < displacement then " + " ++ toString displacement
  else ""

def text (address : Address) : String :=
  let index := match address.index with
    | some register => " + " ++ register.name
    | none => ""
  "[" ++ address.base.text ++ displacementText address.displacement ++ index ++ "]"

/-- Anything but a plain frame slot needs registers or a label to be reached. -/
def inRegisters (address : Address) : Bool :=
  address.base != .reg .framePointer || address.index.isSome

end Address

/-- The keyword for a memory operand of that width, if it has one. -/
def sizeKeyword (size : Int) : String :=
  if size == 1 then "byte"
  else if size == 2 then "word"
  else if size == 4 then "dword"
  else if size == 8 then "qword"
  else if size == 16 then "oword"
  else ""

inductive Operand where
  | reg (register : Register)
  | imm (value : Int64)
  | mem (size : Int) (address : Address)
  /-- The address itself and not what it holds. -/
  | place (address : Address)
  | symbol (name : String)
deriving DecidableEq, Repr

namespace Operand

def text : Operand → String
  | reg register => register.name
  | imm value => toString value
  | mem size address => sizeKeyword size ++ " " ++ address.text
  | place address => address.text
  | symbol name => name

def immediate? : Operand → Option Int64
  | imm value => some value
  | _ => none

def isImmediate (operand : Operand) : Bool := operand.immediate?.isSome

/-- Constants of 64-bit instructions have to fit a sign-extended 32-bit field. -/
def encodable (operand : Operand) (size : Int) : Bool :=
  match operand with
  | imm value => size < 8 || (-2147483648 ≤ value && value ≤ 2147483647)
  | _ => true

end Operand
end Nasm64
