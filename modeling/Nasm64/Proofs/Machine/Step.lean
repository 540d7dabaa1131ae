import Nasm64.Proofs.Machine.Basic

/-! What single instructions do. Operands of the wrong width, writes to the stack pointer other than
reservations, stack overflows and divisions that fault have no outcome. -/
namespace Nasm64

def Flags.ofDifference {width : Nat} (left right : BitVec width) : Flags where
  zero := left == right
  sign := (left - right).msb
  carry := left.ult right
  overflow := left.ssubOverflow right

def Flags.ofConjunction {width : Nat} (left right : BitVec width) : Flags where
  zero := left &&& right == 0
  sign := (left &&& right).msb
  carry := false
  overflow := false

namespace Mnemonic

/-- The condition of an instruction that sets a byte. -/
def condition? : Mnemonic → Option (Flags → Bool)
  | sete => some fun flags => flags.zero
  | setne => some fun flags => !flags.zero
  | setl => some fun flags => flags.sign != flags.overflow
  | setle => some fun flags => flags.zero || flags.sign != flags.overflow
  | setg => some fun flags => !flags.zero && flags.sign == flags.overflow
  | setge => some fun flags => flags.sign == flags.overflow
  | setb => some fun flags => flags.carry
  | setbe => some fun flags => flags.carry || flags.zero
  | seta => some fun flags => !flags.carry && !flags.zero
  | setae => some fun flags => !flags.carry
  | _ => none

def arithmetic? : Mnemonic → Option ((width : Nat) → BitVec width → BitVec width → BitVec width)
  | add => some fun _ left right => left + right
  | sub => some fun _ left right => left - right
  | and => some fun _ left right => left &&& right
  | or => some fun _ left right => left ||| right
  | xor => some fun _ left right => left ^^^ right
  | imul => some fun _ left right => left * right
  | _ => none

/-- Shifts by a count that is already masked. -/
def shift? : Mnemonic → Option ((width : Nat) → BitVec width → Nat → BitVec width)
  | shl => some fun _ word count => word <<< count
  | shr => some fun _ word count => word >>> count
  | sar => some fun _ word count => word.sshiftRight count
  | _ => none

/-- Extensions, by whether they keep the sign. -/
def extension? : Mnemonic → Option Bool
  | movsx | movsxd => some true
  | movzx => some false
  | _ => none

end Mnemonic

namespace Word

/-- An operation on the low bytes of two words. -/
def apply (bytes : Nat) (operation : (width : Nat) → BitVec width → BitVec width → BitVec width)
    (left right : BitVec 64) : BitVec 64 :=
  (operation (8 * bytes) (left.setWidth _) (right.setWidth _)).setWidth 64

/-- The hardware uses six bits of the count at 64 bits, and five below. -/
def maskCount (bytes : Nat) (count : BitVec 64) : Nat :=
  count.toNat % 256 % if bytes = 8 then 64 else 32

def shift (bytes : Nat) (operation : (width : Nat) → BitVec width → Nat → BitVec width)
    (word count : BitVec 64) : BitVec 64 :=
  (operation (8 * bytes) (word.setWidth _) (maskCount bytes count)).setWidth 64

/-- The low bytes of a word, extended to all of it. -/
def extend (signed : Bool) (bytes : Nat) (word : BitVec 64) : BitVec 64 :=
  if signed then (word.setWidth (8 * bytes)).signExtend 64 else low bytes word

/-- The quotient and the remainder of a word of twice the width, unless the quotient does not fit. -/
def divide? (signed : Bool) {width : Nat} (high low divisor : BitVec width) :
    Option (BitVec width × BitVec width) :=
  if signed then
    let dividend := (high ++ low).toInt
    let quotient := dividend.tdiv divisor.toInt
    if divisor ≠ 0 ∧ -2 ^ (width - 1) ≤ quotient ∧ quotient < 2 ^ (width - 1) then
      some (.ofInt width quotient, .ofInt width (dividend.tmod divisor.toInt))
    else none
  else
    let dividend := (high ++ low).toNat
    let quotient := dividend / divisor.toNat
    if divisor ≠ 0 ∧ quotient < 2 ^ width then
      some (.ofNat width quotient, .ofNat width (dividend % divisor.toNat))
    else none

def multiply {width : Nat} (left right : BitVec width) : BitVec width × BitVec width :=
  let product := left.setWidth (width + width) * right.setWidth (width + width)
  ((product >>> width).setWidth width, product.setWidth width)

end Word

def Register.isGeneral (register : Register) : Bool := register.valid && !register.isFloat

namespace Machine

variable (w : World) (m : Machine)

def write (r : Register) (value : BitVec 64) : Machine :=
  m.set r.family
    (Word.blend r.size.toNat (m.reg r.family) value)

def start : Base → BitVec 64
  | .reg r => m.reg r.family
  | .slot offset => m.reg .rbp - offset.toBitVec
  | .label name => w.label name

def address (address : Address) : BitVec 64 :=
  m.start w address.base + address.displacement.toBitVec +
    address.index.elim 0 fun r => m.reg r.family

/-- The value of an operand of the given width. -/
def fetch (size : Int) (operand : Operand) : Option (BitVec 64) :=
  match operand with
  | .reg source => if source.isGeneral && source.size == size then some (m.view source) else none
  | .imm value => if operand.encodable size then some (Word.low size.toNat value.toBitVec) else none
  | .mem width address =>
    if width == size then some (m.memory.load (m.address w address) size.toNat)
    else none
  | .place _ | .symbol _ => none

def width? : Operand → Option Int
  | .reg source => some source.size
  | .mem width _ => some width
  | .imm _ | .place _ | .symbol _ => none

def floatOperand : Operand → Option (BitVec 64)
  | .reg source =>
    if source.isFloat then some (m.reg source.family)
    else if source.isGeneral then some (m.view source)
    else none
  | .mem width address => some (m.memory.load (m.address w address) width.toNat)
  | .imm _ | .place _ | .symbol _ => none

/-- The new content of a general register and the flags after an instruction with two operands. -/
def general (mnemonic : Mnemonic) (target : Register) (source : Operand) :
    Option (BitVec 64 × Flags) :=
  let old := m.reg target.family
  let write (value : BitVec 64) := Word.blend target.size.toNat old value
  match mnemonic with
  | .mov =>
    match source with
    | .imm value => some (write value.toBitVec, m.flags)
    | _ => (m.fetch w target.size source).map fun value => (write value, m.flags)
  | .movsx | .movsxd | .movzx => do
    let signed ← mnemonic.extension?
    let width ← width? source
    let value ← m.fetch w width source
    if width < target.size then return (write (Word.extend signed width.toNat value), m.flags)
    else none
  | .lea =>
    match source with
    | .place address =>
      if target.size == 8 then some (m.address w address, m.flags) else none
    | _ => none
  | .movq =>
    if target.size == 8 then
      (m.floatOperand w source).map fun value => (value, m.flags)
    else none
  | .cvttss2si | .cvttsd2si =>
    (m.floatOperand w source).map fun value =>
      (write (w.float mnemonic old value), m.flags)
  | .cmp | .test => do
    let value ← m.fetch w target.size source
    let width := 8 * target.size.toNat
    let compare : BitVec width → BitVec width → Flags :=
      if mnemonic = .cmp then Flags.ofDifference else Flags.ofConjunction
    return (old, compare (old.setWidth _) (value.setWidth _))
  | .shl | .shr | .sar => do
    let operation ← mnemonic.shift?
    let count ← match source with
      | .imm count => some count.toBitVec
      | .reg ⟨.rcx, 1⟩ => some (m.reg .rcx)
      | _ => none
    return (write (Word.shift target.size.toNat operation old count), w.flags mnemonic old count)
  | _ => do
    let operation ← mnemonic.arithmetic?
    let value ← m.fetch w target.size source
    if mnemonic = .imul ∧ target.size = 1 then none
    else
      return (write (Word.apply target.size.toNat operation old value),
        w.flags mnemonic old value)

/-- The new content of a float register and the flags. -/
def floating (mnemonic : Mnemonic) (target : Register) (source : Operand) :
    Option (BitVec 64 × Flags) := do
  let old := m.reg target.family
  let value ← m.floatOperand w source
  match mnemonic, source with
  | .movss, .reg _ => return ((old >>> 32) <<< 32 ||| Word.low 4 value, m.flags)
  | .movss, _ => return (Word.low 4 value, m.flags)
  | .movsd, _ | .movq, _ => return (value, m.flags)
  | .xorps, _ => return (old ^^^ value, m.flags)
  | .comiss, _ | .comisd, _ => return (old, w.flags mnemonic old value)
  | .addss, _ | .addsd, _ | .subss, _ | .subsd, _ | .mulss, _ | .mulsd, _ | .divss, _ | .divsd, _
  | .cvtss2sd, _ | .cvtsd2ss, _ | .cvtsi2ss, _ | .cvtsi2sd, _ =>
    return (w.float mnemonic old value, m.flags)
  | _, _ => none

def computed (mnemonic : Mnemonic) (target : Register) (source : Operand) :
    Option (BitVec 64 × Flags) :=
  if target.isGeneral then m.general w mnemonic target source
  else if target.isFloat then m.floating w mnemonic target source
  else none

def update (family : Family) (result : BitVec 64 × Flags) : Machine :=
  { m.set family result.1 with flags := result.2 }

/-- The instructions with one operand that compute in place. -/
def single (mnemonic : Mnemonic) (target : Register) : Option (BitVec 64 × Flags) :=
  let old := m.reg target.family
  let write (value : BitVec 64) := Word.blend target.size.toNat old value
  match mnemonic with
  | .neg => some (write (-old), w.flags mnemonic old 0)
  | .not => some (write (~~~old), m.flags)
  | _ => do
    let condition ← mnemonic.condition?
    if target.size == 1 then
      return (write (if condition m.flags then 1 else 0), m.flags)
    else none

/-- The instructions on the pair of `rax` and `rdx`, at 32 and 64 bits. -/
def paired (mnemonic : Mnemonic) (operand : Register) : Option Machine := do
  let size := operand.size
  let width := 8 * size.toNat
  let low : BitVec width := (m.reg .rax).setWidth _
  let high : BitVec width := (m.reg .rdx).setWidth _
  let value : BitVec width := (m.reg operand.family).setWidth _
  let leave (high low : BitVec width) : Machine :=
    { (m.write ⟨.rax, size⟩ (low.setWidth 64)).write ⟨.rdx, size⟩ (high.setWidth 64) with
      flags := w.flags mnemonic (m.reg .rax) (m.reg operand.family) }
  if operand.isGeneral ∧ (size = 4 ∨ size = 8) then
    match mnemonic with
    | .mul =>
      let (high, low) := Word.multiply low value
      return leave high low
    | .div | .idiv =>
      let (quotient, remainder) ← Word.divide? (mnemonic = .idiv) high low value
      return leave remainder quotient
    | _ => none
  else none

/-- An instruction with a register as its target. -/
def binary (mnemonic : Mnemonic) (target : Register) (source : Operand) : Option Machine :=
  if target.family = .rsp then
    match mnemonic, source with
    | .sub, .imm bytes => m.reserve? bytes
    | .add, .imm bytes => some (m.release bytes)
    | _, _ => none
  else if mnemonic = .xchg then
    match source with
    | .reg other =>
      if target.isGeneral && other.isGeneral && target.size == 8 && other.size == 8 &&
          other.family != .rsp then
        some ((m.set target.family (m.reg other.family)).set other.family
          (m.reg target.family))
      else none
    | _ => none
  else (m.computed w mnemonic target source).map (m.update target.family)

/-- Whether an instruction stores that register at that width. -/
def isStore (mnemonic : Mnemonic) (size : Int) (source : Register) : Bool :=
  match mnemonic with
  | .mov => source.isGeneral && source.size == size
  | .movss => source.isFloat && size == 4
  | .movsd => source.isFloat && size == 8
  | _ => false

def storeRegister (mnemonic : Mnemonic) (size : Int) (address : Address) (source : Register) :
    Option Machine :=
  if isStore mnemonic size source then
    some { m with
      memory := m.memory.store (m.address w address) size.toNat
        (m.reg source.family) }
  else none

def step : Line → Option Machine
  | .plain .cqo => some (m.write ⟨.rdx, 8⟩ ((m.reg .rax).sshiftRight 63))
  | .plain .cdq =>
    some (m.write ⟨.rdx, 4⟩ ((Word.extend true 4 (m.reg .rax)).sshiftRight 63))
  | .unary .push (.reg source) =>
    if source.isGeneral && source.size == 8 then m.push? (m.reg source.family) else none
  | .unary .pop (.reg target) =>
    if target.isGeneral && target.size == 8 && target.family != .rsp then
      some (m.pop target.family)
    else none
  | .unary .call (.symbol name) => some (m.callee w name)
  | .unary mnemonic (.reg target) =>
    if mnemonic = .mul ∨ mnemonic = .div ∨ mnemonic = .idiv then m.paired w mnemonic target
    else if target.isGeneral && target.family != .rsp then
      (m.single w mnemonic target).map (m.update target.family)
    else none
  | .binary mnemonic (.reg target) source => m.binary w mnemonic target source
  | .binary mnemonic (.mem size address) (.reg source) =>
    m.storeRegister w mnemonic size address source
  | .comment _ => some m
  | _ => none

/-- Runs code from its first line to its last. -/
def run : Code → Machine → Option Machine
  | [], m => some m
  | line :: rest, m => (step w m line).bind (run rest)

theorem run_line (line : Line) : run w [line] m = step w m line :=
  Option.bind_fun_some (step w m line)

theorem run_append (first second : Code) :
    run w (first ++ second) m = (run w first m).bind (run w second) := by
  induction first generalizing m with
  | nil => rfl
  | cons line rest ih =>
    simp only [List.cons_append, run, Option.bind_assoc]
    congr 1
    funext mid
    exact ih mid

end Machine
end Nasm64
