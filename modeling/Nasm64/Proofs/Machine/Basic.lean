import Mathlib.Algebra.Order.Ring.Int
import Nasm64.Code.Line
import Nasm64.Register.Pool

/-! A machine that runs straight-line code: registers with aliasing views, memory in bytes, flags and
a stack that grows down to a floor. Float registers are modelled in their low half. -/
namespace Nasm64

def Word.low (bytes : Nat) (word : BitVec 64) : BitVec 64 := (word.setWidth (8 * bytes)).setWidth 64

/-- A write to a view. At 32 bits it clears the upper half, below that it leaves the rest alone. -/
def Word.blend (bytes : Nat) (old new : BitVec 64) : BitVec 64 :=
  if bytes = 4 then Word.low 4 new
  else Word.low bytes new ||| (old >>> (8 * bytes)) <<< (8 * bytes)

structure Flags where
  zero : Bool
  sign : Bool
  carry : Bool
  overflow : Bool
deriving DecidableEq, Repr, Inhabited

abbrev Memory := BitVec 64 → BitVec 8

namespace Memory

/-- Bytes from an address on, the lowest first. -/
def load (memory : Memory) (address : BitVec 64) : Nat → BitVec 64
  | 0 => 0
  | bytes + 1 => (memory address).setWidth 64 ||| load memory (address + 1) bytes <<< 8

/-- Whether a byte is one of those from an address on. -/
def covers (address : BitVec 64) (bytes : Nat) (byte : BitVec 64) : Prop :=
  (byte - address).toNat < bytes

instance (address : BitVec 64) (bytes : Nat) (byte : BitVec 64) :
    Decidable (covers address bytes byte) := inferInstanceAs (Decidable (_ < _))

def store (memory : Memory) (address : BitVec 64) (bytes : Nat) (value : BitVec 64) : Memory :=
  fun byte =>
    if covers address bytes byte then (value >>> (8 * (byte - address).toNat)).setWidth 8
    else memory byte

theorem covers_iff (fits : addr.toNat + bytes ≤ 2 ^ 64) : covers addr bytes byte ↔
    addr.toNat ≤ byte.toNat ∧ byte.toNat < addr.toNat + bytes := by
  simp only [covers, BitVec.toNat_sub]
  have := byte.isLt
  have := addr.isLt
  omega

theorem store_apart {memory : Memory} (apart : ¬ covers addr bytes byte) :
    memory.store addr bytes v byte = memory byte := if_neg apart

theorem load_congr {memory other : Memory}
    (same : ∀ byte, covers addr bytes byte → memory byte = other byte) (short : bytes < 2 ^ 64) :
    memory.load addr bytes = other.load addr bytes :=
    by
  induction bytes generalizing addr with
  | zero => rfl
  | succ bytes ih =>
    have first : memory addr = other addr := same _ (by simp [covers])
    have rest : memory.load (addr + 1) bytes = other.load (addr + 1) bytes := by
      refine ih (fun byte covered => same byte ?_) (by omega)
      simp only [covers] at covered ⊢
      have split : byte - addr = byte - (addr + 1) + 1 := by grind
      rw [split, BitVec.toNat_add]
      have := Nat.mod_le ((byte - (addr + 1)).toNat + (1 : BitVec 64).toNat) (2 ^ 64)
      have one : (1 : BitVec 64).toNat = 1 := rfl
      omega
    simp only [load, first, rest]

theorem load_bit (memory : Memory) (addr : BitVec 64) (bytes : Nat) (inside : bit < 64) :
    (memory.load addr bytes).getLsbD bit =
      (decide (bit < 8 * bytes) && (memory (addr + BitVec.ofNat 64 (bit / 8))).getLsbD
      (bit % 8)) := by
  induction bytes generalizing addr bit with
  | zero => simp [load]
  | succ bytes ih =>
    simp only [load, BitVec.getLsbD_or, BitVec.getLsbD_setWidth, BitVec.getLsbD_shiftLeft, inside,
      decide_true, Bool.true_and]
    by_cases low : bit < 8
    · simp [low, Nat.div_eq_of_lt low, Nat.mod_eq_of_lt low, show bit < 8 * (bytes + 1) by omega]
    · have next : addr + 1 + BitVec.ofNat 64 ((bit - 8) / 8) =
          addr + BitVec.ofNat 64 (bit / 8) := by
        rw [show bit / 8 = (bit - 8) / 8 + 1 by omega, BitVec.ofNat_add, BitVec.add_assoc]
        congr 1
        exact BitVec.add_comm _ _
      have high : (memory addr).getLsbD bit = false := BitVec.getLsbD_of_ge _ _ (by omega)
      rw [ih (addr + 1) (by omega), next, high, show (bit - 8) % 8 = bit % 8 by omega]
      simp [low, show bit - 8 < 8 * bytes ↔ bit < 8 * (bytes + 1) by omega]

theorem load_store (memory : Memory) (addr v : BitVec 64) (bytes : Nat) :
    (memory.store addr bytes v).load addr bytes = Word.low bytes v := by
  refine BitVec.eq_of_getLsbD_eq fun bit inside => ?_
  rw [load_bit _ _ _ inside]
  have distance : (addr + BitVec.ofNat 64 (bit / 8) - addr).toNat = bit / 8 := by
    rw [show addr + BitVec.ofNat 64 (bit / 8) - addr = BitVec.ofNat 64 (bit / 8) by grind,
      BitVec.toNat_ofNat]
    omega
  simp only [store, covers, distance, Word.low, BitVec.getLsbD_setWidth, inside, decide_true,
    Bool.true_and]
  by_cases covered : bit < 8 * bytes
  · simp [covered, show bit / 8 < bytes by omega, show bit % 8 < 8 by omega,
      show 8 * (bit / 8) + bit % 8 = bit by omega]
  · simp [covered]

end Memory

/-- The free part of the stack reaches from `floor` to the stack pointer. `blocks` remembers where
the stack pointer was before each reservation that is still open. -/
structure Machine where
  reg : Family → BitVec 64
  memory : Memory
  flags : Flags
  floor : BitVec 64
  blocks : List (BitVec 64)

namespace Machine

variable (m : Machine)

def view (r : Register) : BitVec 64 :=
  Word.low r.size.toNat (m.reg r.family)

def set (family : Family) (value : BitVec 64) : Machine :=
  { m with reg := fun other => if other = family then value else m.reg other }

/-- The bytes between the floor and the stack pointer. -/
def room : Int := (m.reg .rsp).toNat - (m.floor.toNat : Int)

/-- The top of the argument area that was reserved last. -/
def blockTop : BitVec 64 := m.blocks.head?.getD (m.reg .rsp)

/-- Whether a byte is on the stack below an address. -/
def isBelow (top byte : BitVec 64) : Prop :=
  m.floor.toNat ≤ byte.toNat ∧ byte.toNat < top.toNat

instance (top byte : BitVec 64) : Decidable (m.isBelow top byte) :=
  inferInstanceAs (Decidable (_ ∧ _))

/-- Puts a word on the stack, if there is room for it. -/
def push? (value : BitVec 64) : Option Machine :=
  if 8 ≤ m.room then
    let top := m.reg .rsp - 8
    some { m.set .rsp top with memory := m.memory.store top 8 value }
  else none

/-- Takes a word from the stack into a register. -/
def pop (family : Family) : Machine :=
  let top := m.reg .rsp
  (m.set .rsp (top + 8)).set family (m.memory.load top 8)

/-- Moves the stack pointer down, but not below the floor. -/
def reserve? (bytes : Int64) : Option Machine :=
  if bytes.toInt ≤ m.room then
    let top := m.reg .rsp
    some { m.set .rsp (top - bytes.toBitVec) with blocks := top :: m.blocks }
  else none

def release (bytes : Int64) : Machine :=
  { m.set .rsp (m.reg .rsp + bytes.toBitVec) with blocks := m.blocks.tail }

end Machine

/-- What the machine leaves open: where labels are, the flags that are undefined, float arithmetic,
and what a callee leaves behind. -/
structure World where
  label : String → BitVec 64
  flags : Mnemonic → BitVec 64 → BitVec 64 → Flags
  float : Mnemonic → BitVec 64 → BitVec 64 → BitVec 64
  call : String → Machine → Machine

/-- A call overwrites the volatile registers, the argument area and the free stack below it. -/
def Machine.callee (w : World) (m : Machine) (name : String) : Machine :=
  let left := w.call name m
  { m with
    reg := fun family => if family.isVolatile then left.reg family else m.reg family
    memory := fun byte =>
      if m.isBelow m.blockTop byte ∨ m.isBelow (m.reg .rsp) byte then
        left.memory byte
      else m.memory byte
    flags := left.flags }

end Nasm64
