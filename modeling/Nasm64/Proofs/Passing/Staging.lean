import Nasm64.Proofs.Emission.Expr
import Nasm64.Proofs.Machine.Floating

/-! The arguments of a call in the slots of its area: each is evaluated and stored in turn, and stays
there until the call. -/
namespace Nasm64

open Lower Call Machine

def Call.slotAddress (area : BitVec 64) (index : Nat) : BitVec 64 := area + BitVec.ofNat 64 (8 * index)

theorem Call.toBitVec_slotOffset (idx : Nat) :
    (Int64.ofNat idx * slotSize).toBitVec = BitVec.ofNat 64 (8 * idx) := by
  rw [Int64.toBitVec_mul, Int64.toBitVec_ofNat', Nat.mul_comm, BitVec.ofNat_mul]
  rfl

namespace Machine

variable {world : World} {machine mid next : Machine}

theorem address_argumentSlot (world : World) (machine : Machine) (index : Nat) :
    machine.address world (argumentSlot index) = slotAddress (machine.reg .rsp) index := by
  simp only [address, start, argumentSlot, Address.aboveStack, Register.stackPointer,
    toBitVec_slotOffset, slotAddress, Option.elim_none]
  exact BitVec.add_zero _

structure Beside (before after : Machine) : Prop where
  stack : after.reg .rsp = before.reg .rsp
  base : after.reg .rbp = before.reg .rbp
  floor : after.floor = before.floor

namespace Beside

theorem refl (machine : Machine) : Beside machine machine := ⟨rfl, rfl, rfl⟩

theorem trans (first : Beside machine mid) (second : Beside mid next) : Beside machine next :=
  ⟨second.stack.trans first.stack, second.base.trans first.base, second.floor.trans first.floor⟩

end Beside

theorem Agrees.beside {changes : Family → Prop} {touches : BitVec 64 → Prop}
    (agrees : Agrees (fun fam => fam.isOrdinary = true ∧ changes fam) touches machine next) :
    Beside machine next := ⟨agrees.stack.1, agrees.stack.2, agrees.floor⟩

/-- The stack pointer is at the start of an area with slots, which end below an address. Code does not
store to the frame by way of anything that is free below this address. -/
structure HasArea (machine : Machine) (count : Nat) (top : BitVec 64) (code : Code) : Prop where
  natural : 0 ≤ machine.room
  slots : (machine.reg .rsp).toNat + 8 * count ≤ top.toNat
  clear : ∀ byte, code.storesTo (machine.reg .rbp) byte → ¬ machine.isBelow top byte

namespace HasArea

variable {count : Nat} {top : BitVec 64} {code first second : Code}

theorem beside (hasArea : machine.HasArea count top code) (beside : Beside machine next) :
    next.HasArea count top code where
  natural := by
    simp only [room, beside.stack, beside.floor]
    exact hasArea.natural
  slots := beside.stack ▸ hasArea.slots
  clear := by
    simp only [isBelow, beside.base, beside.floor]
    exact hasArea.clear

theorem left (hasArea : machine.HasArea count top (first ++ second)) : machine.HasArea count top first :=
  { hasArea with
    clear := fun byte stored => hasArea.clear byte (Code.storesTo_append.mpr (.inl stored)) }

theorem right (hasArea : machine.HasArea count top (first ++ second)) : machine.HasArea count top second :=
  { hasArea with
    clear := fun byte stored => hasArea.clear byte (Code.storesTo_append.mpr (.inr stored)) }

section

variable (hasArea : machine.HasArea count top code)

include hasArea

theorem isClear : machine.Clear code := by
  intro byte stored below
  have slots := hasArea.slots
  have high := below.2
  exact hasArea.clear byte stored ⟨below.1, by omega⟩

theorem covers_slot (slot : index < count) (narrow : size ≤ 8) :
    Memory.covers (slotAddress (machine.reg .rsp) index) size byte ↔
      (machine.reg .rsp).toNat + 8 * index ≤ byte.toNat ∧
      byte.toNat < (machine.reg .rsp).toNat + 8 * index + size := by
  have slots := hasArea.slots
  have high := top.isLt
  have start : (slotAddress (machine.reg .rsp) index).toNat =
      (machine.reg .rsp).toNat + 8 * index := by
    rw [slotAddress, BitVec.toNat_add, BitVec.toNat_ofNat]
    omega
  rw [Memory.covers_iff (by omega), start]

/-- Code that uses the stack below the area leaves the slots alone. -/
theorem untouched (slot : idx < count)
    (covered : Memory.covers (slotAddress (machine.reg .rsp) idx) 8 byte) :
    ¬ machine.touched none code byte := by
  have slots := hasArea.slots
  have natural := hasArea.natural
  rw [hasArea.covers_slot slot (Nat.le_refl _)] at covered
  simp only [room] at natural
  rintro (below | stored)
  · have high : byte.toNat < (machine.reg .rsp).toNat := below.2
    omega
  · exact hasArea.clear byte stored ⟨by omega, by omega⟩

end

end HasArea

section

variable {size : Int} {address : Address} {src : Register}

theorem step_store {mn : Mnemonic}
    (stepped : step world machine (.binary mn (.mem size address) (.reg src)) = some next) :
    next = { machine with
      memory := machine.memory.store (machine.address world address) size.toNat
        (machine.reg src.family) } := by
  simp only [step, storeRegister] at stepped
  split at stepped
  · cases stepped
    rfl
  · cases stepped

theorem store_eq (ran : run world (store (.mem size address) src) machine = some next) :
    next = { machine with
      memory := machine.memory.store (machine.address world address) size.toNat
        (machine.reg src.family) } := by
  unfold store at ran
  split at ran
  all_goals
    simp only [run, Option.bind_eq_some_iff] at ran
    obtain ⟨_, stepped, same⟩ := ran
    cases same
    exact step_store stepped

theorem store_spares (apart : ¬ Memory.covers (machine.address world address) size.toNat byte) :
    Spares world (store (.mem size address) src) machine byte := by
  unfold store
  split
  all_goals
    refine .line fun next stepped => ?_
    rw [step_store stepped]
    exact Memory.store_apart apart

end

end Machine

/-- An argument of a call with the type that it travels as: how it is evaluated, and its slot. -/
structure Staging where
  evaluation : Code
  type : Ty
  index : Nat

namespace Staging

def register (staging : Staging) : Register := accumulatorFor staging.type

def storing (staging : Staging) : Code :=
  store (.mem staging.type.registerSize (argumentSlot staging.index)) staging.register

def code (staging : Staging) : Code := staging.evaluation ++ staging.storing

/-- The evaluation uses the stack in brackets, and the value fits a slot. -/
structure Fits (staging : Staging) (env : Env) (depth : Int64) (weight count : Nat) : Prop where
  bracketed : ∃ changes, Bracketed env depth none weight changes staging.evaluation
  narrow : staging.type.registerSize.toNat ≤ 8
  slot : staging.index < count

variable {env : Env} {depth : Int64} {weight count : Nat} {world : World}
  {machine evaluated next : Machine} {top byte : BitVec 64} {stage : Staging}

theorem evaluation_beside (fits : stage.Fits env depth weight count)
    (sound : Sound env depth weight stage.evaluation)
    (hasArea : machine.HasArea count top stage.evaluation)
    (ran : machine.run world stage.evaluation = some next) : machine.Beside next := by
  obtain ⟨_, bracketed⟩ := fits.bracketed
  exact (bracketed.agrees sound hasArea.isClear .none ran).beside

theorem storing_beside (ran : machine.run world stage.storing = some next) :
    machine.Beside next := by
  rw [store_eq ran]
  exact ⟨rfl, rfl, rfl⟩

section

variable (fits : stage.Fits env depth weight count) (sound : Sound env depth weight stage.code)
  (hasArea : machine.HasArea count top stage.code)

include fits sound hasArea

theorem code_beside (ran : machine.run world stage.code = some next) : machine.Beside next := by
  rw [code, run_append, Option.bind_eq_some_iff] at ran
  obtain ⟨evaluated, evaluating, storing⟩ := ran
  exact (evaluation_beside fits sound.left hasArea.left evaluating).trans (storing_beside storing)

theorem code_spares {idx : Nat} (slot : idx < count) (other : stage.index ≠ idx)
    (covered : Memory.covers (slotAddress (machine.reg .rsp) idx) 8 byte) :
    machine.Spares world stage.code byte := by
  obtain ⟨_, bracketed⟩ := fits.bracketed
  refine .append ?_ fun evaluated evaluating => store_spares ?_
  · exact (bracketed.passes sound.left hasArea.left.isClear .none).spares
      (hasArea.left.untouched slot covered)
  · have beside := evaluation_beside fits sound.left hasArea.left evaluating
    rw [address_argumentSlot, beside.stack, hasArea.covers_slot fits.slot fits.narrow]
    rw [hasArea.covers_slot slot (Nat.le_refl _)] at covered
    have narrow := fits.narrow
    omega

end

variable {stagings before after : List Staging}

section

variable (fits : ∀ stage ∈ stagings, stage.Fits env depth weight count)
  (sound : Sound env depth weight (stagings.flatMap code))
  (hasArea : machine.HasArea count top (stagings.flatMap code))

include fits sound hasArea

theorem all_beside
    (ran : machine.run world (stagings.flatMap code) = some next) : machine.Beside next := by
  induction stagings generalizing machine with
  | nil =>
    cases ran
    exact .refl _
  | cons stage rest ih =>
    rw [List.flatMap_cons] at sound hasArea ran
    rw [run_append, Option.bind_eq_some_iff] at ran
    obtain ⟨mid, here, there⟩ := ran
    have beside := code_beside (fits stage (by simp)) sound.left hasArea.left here
    exact beside.trans (ih (fun other mem => fits other (by simp [mem])) sound.right
      (hasArea.right.beside beside) there)

theorem all_spare {idx : Nat} (slot : idx < count) (others : ∀ stage ∈ stagings, stage.index ≠ idx)
    (covered : Memory.covers (slotAddress (machine.reg .rsp) idx) 8 byte) :
    machine.Spares world (stagings.flatMap code) byte := by
  induction stagings generalizing machine with
  | nil => exact .nil
  | cons stage rest ih =>
    rw [List.flatMap_cons] at sound hasArea ⊢
    have here := fits stage (by simp)
    refine .append (code_spares here sound.left hasArea.left slot (others stage (by simp)) covered)
      fun mid ran => ?_
    have beside := code_beside here sound.left hasArea.left ran
    exact ih (fun other mem => fits other (by simp [mem])) sound.right
      (hasArea.right.beside beside) (fun other mem => others other (by simp [mem]))
      (beside.stack ▸ covered)

end

/-- Once an argument is stored, its slot holds the value that it was evaluated to, at every point up
to the call. -/
theorem slot_keeps_value {loading : Code}
    (fits : ∀ other ∈ before ++ stage :: after, other.Fits env depth weight count)
    (others : ∀ other ∈ after, other.index ≠ stage.index)
    (sound : Sound env depth weight ((before ++ stage :: after).flatMap code))
    (hasArea : machine.HasArea count top ((before ++ stage :: after).flatMap code))
    (silent : ∀ machine byte, Spares world loading machine byte)
    (evaluating : machine.run world (before.flatMap code ++ stage.evaluation) = some evaluated) :
    machine.Beside evaluated ∧ ∀ part later, part <+: after.flatMap code ++ loading →
      evaluated.run world (stage.storing ++ part) = some later →
      later.memory.load (slotAddress (machine.reg .rsp) stage.index) stage.type.registerSize.toNat =
        evaluated.view stage.register := by
  rw [List.flatMap_append, List.flatMap_cons] at sound hasArea
  rw [run_append, Option.bind_eq_some_iff] at evaluating
  obtain ⟨reached, earlier, evaluating⟩ := evaluating
  have here := fits stage (by simp)
  have first := all_beside (fun other mem => fits other (by simp [mem])) sound.left hasArea.left
    earlier
  have second := evaluation_beside here sound.right.left.left
    (hasArea.right.left.left.beside first) evaluating
  have beside := first.trans second
  refine ⟨beside, fun part later leads ran => ?_⟩
  rw [run_append, Option.bind_eq_some_iff] at ran
  obtain ⟨stored, storing, ran⟩ := ran
  have third := beside.trans (storing_beside storing)
  have spares : ∀ byte, Memory.covers (slotAddress (machine.reg .rsp) stage.index)
      stage.type.registerSize.toNat byte → later.memory byte = stored.memory byte := by
    intro byte covered
    have inSlot : Memory.covers (slotAddress (stored.reg .rsp) stage.index) 8 byte :=
      third.stack ▸ Nat.lt_of_lt_of_le covered here.narrow
    refine Spares.append ?_ (fun _ _ => silent _ _) leads ran
    exact all_spare (fun other mem => fits other (by simp [mem])) sound.right.right
      (hasArea.right.right.beside third) here.slot others inSlot
  have narrow := here.narrow
  have size : stage.register.size = stage.type.registerSize := by
    unfold register accumulatorFor
    split <;> rfl
  rw [Memory.load_congr spares (by omega), store_eq storing, address_argumentSlot,
    beside.stack, Memory.load_store, view, size]

end Staging

end Nasm64
