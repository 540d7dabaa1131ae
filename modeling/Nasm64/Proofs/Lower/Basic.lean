import Mathlib.Tactic.Simproc.ExistsAndEq
import Nasm64.Proofs.Lower.Frame

/-! The successful runs of the actions that lowering is made of: choosing, holding and saving
registers, and finding variables. -/
namespace Nasm64

namespace Lower

variable {α : Type} {env : Env} {frame next : Frame}

/-- The register for a value: the innermost one held if its class is right, and a fresh one
otherwise. -/
theorem yields_destination :
    Yields (destination pos ty) env frame r next ↔
      (∃ top, frame.held.head? = some top ∧ top.isFloat = ty.isFloat ∧
        r = top.resize ty.registerSize ∧ next = frame) ∨
      ((∀ top, frame.held.head? = some top → top.isFloat ≠ ty.isFloat) ∧
        frame.free ty.isFloat ty.registerSize = .ok r ∧ next = frame.touch r.family) := by
  cases held : frame.held.head? with
  | none => simp [destination, held, yields_acquire, and_assoc, eq_comm (b := next)]
  | some top =>
    by_cases same : top.isFloat = ty.isFloat <;>
      simp [destination, held, same, yields_acquire, and_assoc, eq_comm (a := r), eq_comm (a := next)]

theorem yields_workFor :
    Yields (workFor pos dst ty) env frame work next ↔
      (dst.isFloat = ty.isFloat ∧ work = dst.resize ty.registerSize ∧ next = frame) ∨
      (dst.isFloat ≠ ty.isFloat ∧ frame.free ty.isFloat ty.registerSize = .ok work ∧
        next = frame.touch work.family) := by
  simp [workFor, yields_ite, yields_acquire, eq_comm (a := work), eq_comm (a := next)]

theorem yields_holding {r : Register} {body : Lower α} {a : α} :
    Yields (holding r body) env frame a next ↔
      ∃ after, Yields body env (frame.hold r) a after ∧ next = frame.unhold r after := by
  by_cases used : frame.inUse r.family = true <;>
    simp [holding, used, Frame.hold, Frame.unhold, and_assoc, eq_comm (a := next)]

theorem yields_lookup :
    Yields (lookup pos name) env frame slot next ↔
      frame.find? name = some slot ∧ next = frame.refer slot := by
  cases found : frame.find? name with
  | none => simp [lookup, find?, found, and_assoc]
  | some other =>
    simp [lookup, find?, found, and_assoc]
    grind

theorem yields_reserve :
    Yields (reserve size align) env frame offset next ↔
      frame.reserve size align = (offset, next) := by
  simp only [reserve, yields_bind, yields_get, and_assoc, exists_and_left, exists_eq_left']
  cases frame.reserve size align
  simp [eq_comm, and_comm]

def Frame.saved (frame : Frame) (count : Nat) : Frame :=
  { frame with pushes := frame.pushes + count, depth := frame.depth + Int64.ofNat (8 * count) }

def Frame.restored (frame : Frame) (count : Nat) : Frame :=
  { frame with pops := frame.pops + count, depth := frame.depth - Int64.ofNat (8 * count) }

theorem yields_savePush :
    Yields (savePush r) env frame code next ↔ code = pushCode r ∧ next = frame.saved 1 := by
  simp [savePush, Frame.saved, and_comm, eq_comm (a := code), eq_comm (a := next)]

theorem yields_restorePop :
    Yields (restorePop r) env frame code next ↔ code = popCode r ∧ next = frame.restored 1 := by
  simp [restorePop, Frame.restored, and_comm, eq_comm (a := code), eq_comm (a := next)]

@[simp] theorem Frame.saved_zero (frame : Frame) : frame.saved 0 = frame := by
  simp [Frame.saved]

@[simp] theorem Frame.restored_zero (frame : Frame) : frame.restored 0 = frame := by
  simp [Frame.restored]

theorem Frame.saved_saved (frame : Frame) (first second : Nat) :
    (frame.saved first).saved second = frame.saved (first + second) := by
  simp only [Frame.saved, Nat.mul_add, Int64.ofNat_add, Nat.add_assoc, Int64.add_assoc]

theorem Frame.restored_restored (frame : Frame) (first second : Nat) :
    (frame.restored first).restored second = frame.restored (first + second) := by
  simp only [Frame.restored, Nat.mul_add, Int64.ofNat_add, Nat.add_assoc, Int64.sub_eq_add_neg,
    Int64.neg_add, Int64.add_assoc]

theorem yields_mapM_savePush {registers : List Register} :
    Yields (registers.mapM savePush) env frame codes next ↔
      codes = registers.map pushCode ∧ next = frame.saved registers.length := by
  induction registers generalizing frame codes next with
  | nil => simp [eq_comm]
  | cons r rest ih =>
    simp [yields_savePush, ih, and_assoc, Frame.saved_saved, Nat.add_comm]
    grind

theorem yields_mapM_restorePop {registers : List Register} :
    Yields (registers.mapM restorePop) env frame codes next ↔
      codes = registers.map popCode ∧ next = frame.restored registers.length := by
  induction registers generalizing frame codes next with
  | nil => simp [eq_comm]
  | cons r rest ih =>
    simp [yields_restorePop, ih, and_assoc, Frame.restored_restored, Nat.add_comm]
    grind

end Lower

end Nasm64
