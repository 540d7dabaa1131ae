import Nasm64.Register.Basic

/-! The registers handed out for values, in the order in which they are tried. -/
namespace Nasm64.Register

def poolFamilies (isFloat : Bool) : List Family :=
  if isFloat then (List.range 7).map .float
  else [.rax, .rcx, .rdi, .rdx, .rsi, .r8, .r9, .r10]

def inPool (isFloat : Bool) (size : Int) : Bool :=
  if isFloat then size == 4 || size == 8 else size == 1 || size == 2 || size == 4 || size == 8

def pool (isFloat : Bool) (size : Int) : Except Error (List Register) :=
  if inPool isFloat size then .ok ((poolFamilies isFloat).map fun family => ⟨family, size⟩)
  else .error (.noPool isFloat size)

end Nasm64.Register

namespace Nasm64.Family

def isVolatile : Family → Bool
  | rax | rcx | rdx | r8 | r9 | r10 | r11 => true
  | xmm index => index.val ≤ 5
  | _ => false

/-- The families that a method preserves for its caller when it uses them. -/
def isCalleeSaved : Family → Bool
  | rdi | rsi | rbx | r12 | r13 | r14 | r15 => true
  | xmm index => index.val == 6 || index.val == 7
  | _ => false

end Nasm64.Family
