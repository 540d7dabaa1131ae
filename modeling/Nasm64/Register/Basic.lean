/-! The register file: families of aliasing views, and one view of a family at a width in bytes. -/
namespace Nasm64

inductive Family where
  | rax | rcx | rdx | rbx | rsp | rbp | rsi | rdi
  | r8 | r9 | r10 | r11 | r12 | r13 | r14 | r15
  | xmm (index : Fin 16)
  /-- A number that names no family. -/
  | unknown (code : Int)
deriving DecidableEq, Repr

namespace Family

def general : List Family :=
  [rax, rcx, rdx, rbx, rsp, rbp, rsi, rdi, r8, r9, r10, r11, r12, r13, r14, r15]

def code : Family → Int
  | rax => 0
  | rcx => 1
  | rdx => 2
  | rbx => 3
  | rsp => 4
  | rbp => 5
  | rsi => 6
  | rdi => 7
  | r8 => 8
  | r9 => 9
  | r10 => 10
  | r11 => 11
  | r12 => 12
  | r13 => 13
  | r14 => 14
  | r15 => 15
  | xmm index => 16 + index.val
  | unknown code => code

def ofCode (code : Int) : Family :=
  if 0 ≤ code && code < 16 then general.getD code.toNat (unknown code)
  else if 16 ≤ code && code < 32 then xmm (Fin.ofNat 16 (code.toNat - 16))
  else unknown code

def float (index : Nat) : Family := xmm (Fin.ofNat 16 index)

def isFloat : Family → Bool
  | xmm _ => true
  | _ => false

def hasView : Family → Int → Bool
  | unknown _, _ => false
  | xmm _, size => size == 4 || size == 8 || size == 16
  | _, size => size == 1 || size == 2 || size == 4 || size == 8

/-- The names of the byte, word, double word and quad word views. -/
def viewNames : Family → String × String × String × String
  | rax => ("al", "ax", "eax", "rax")
  | rcx => ("cl", "cx", "ecx", "rcx")
  | rdx => ("dl", "dx", "edx", "rdx")
  | rbx => ("bl", "bx", "ebx", "rbx")
  | rsp => ("spl", "sp", "esp", "rsp")
  | rbp => ("bpl", "bp", "ebp", "rbp")
  | rsi => ("sil", "si", "esi", "rsi")
  | rdi => ("dil", "di", "edi", "rdi")
  | r8 => ("r8b", "r8w", "r8d", "r8")
  | r9 => ("r9b", "r9w", "r9d", "r9")
  | r10 => ("r10b", "r10w", "r10d", "r10")
  | r11 => ("r11b", "r11w", "r11d", "r11")
  | r12 => ("r12b", "r12w", "r12d", "r12")
  | r13 => ("r13b", "r13w", "r13d", "r13")
  | r14 => ("r14b", "r14w", "r14d", "r14")
  | r15 => ("r15b", "r15w", "r15d", "r15")
  | xmm index =>
    let name := "xmm" ++ toString index.val
    (name, name, name, name)
  | unknown _ => ("", "", "", "")

end Family

/-- A family viewed at a width. Only `Register.valid` views exist on the machine. -/
structure Register where
  family : Family
  size : Int
deriving DecidableEq, Repr

namespace Register

def isFloat (register : Register) : Bool := register.family.isFloat

def valid (register : Register) : Bool := register.family.hasView register.size

def name (register : Register) : String :=
  if register.valid then
    let (byte, word, double, quad) := register.family.viewNames
    if register.size == 1 then byte
    else if register.size == 2 then word
    else if register.size == 4 then double
    else quad
  else
    "<invalid register " ++ toString register.family.code ++ "/" ++ toString register.size ++ ">"

/-- The same family at another width, which may have no view there. -/
def resize (register : Register) (size : Int) : Register := { register with size }

def aliases (left right : Register) : Bool := left.family == right.family

/-- Stages operands of conversions, wide constants and the accumulator instructions. -/
def scratch : Register := ⟨.r11, 8⟩

def floatScratch : Register := ⟨.float 7, 8⟩

def accumulator : Register := ⟨.rax, 8⟩

def floatAccumulator : Register := ⟨.float 0, 8⟩

def framePointer : Register := ⟨.rbp, 8⟩

def stackPointer : Register := ⟨.rsp, 8⟩

inductive Error where
  | badView (family : Family) (size : Int)
  | noPool (isFloat : Bool) (size : Int)
  | exhausted (isFloat : Bool) (size : Int)
  | noLane (register : Register)
deriving DecidableEq, Repr

def className (isFloat : Bool) : String := if isFloat then "float" else "general purpose"

def Error.message : Error → String
  | .badView family size =>
    "invalid register size: " ++ toString size ++ " bytes for family " ++ toString family.code
  | .noPool isFloat size =>
    "invalid register size: no " ++ className isFloat ++ " registers of " ++ toString size ++ " bytes"
  | .exhausted isFloat size =>
    "register pool exhausted: no free " ++ toString size ++ "-byte " ++ className isFloat ++ " register"
  | .noLane register => "register is not bound to an argument lane: " ++ register.name

def view (family : Family) (size : Int) : Except Error Register :=
  if family.hasView size then .ok ⟨family, size⟩ else .error (.badView family size)

end Register
end Nasm64
