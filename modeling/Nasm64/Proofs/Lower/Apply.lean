import Nasm64.Lower.Apply
import Nasm64.Proofs.Lower.Basic

/-! The code of a binary operator as a function of the frame. Lowering an operator changes nothing
in the frame but the counts of saved registers. -/
namespace Nasm64

namespace Lower

variable {env : Env} {frame next : Frame}

def saveCode (saved : List Register) : Code := (saved.map pushCode).flatten

def restoreCode (saved : List Register) : Code := (saved.reverse.map popCode).flatten

def Frame.balanced (frame : Frame) (count : Nat) : Frame :=
  { frame with pushes := frame.pushes + count, pops := frame.pops + count }

theorem Frame.restored_saved (frame : Frame) (count : Nat) :
    (frame.saved count).restored count = frame.balanced count := by
  simp [Frame.saved, Frame.restored, Frame.balanced]

@[simp] theorem Frame.balanced_zero (frame : Frame) : frame.balanced 0 = frame := rfl

@[simp] theorem Frame.balanced_held (frame : Frame) (count : Nat) :
    (frame.balanced count).held = frame.held := rfl

@[simp] theorem Frame.balanced_scope (frame : Frame) (count : Nat) :
    (frame.balanced count).scope = frame.scope := rfl

@[simp] theorem Frame.balanced_depth (frame : Frame) (count : Nat) :
    (frame.balanced count).depth = frame.depth := rfl

theorem yields_saveInUse : Yields (saveInUse families) env frame (code, saved) next ↔ saved =
    frame.inUseOf families ∧ code = saveCode saved ∧ next = frame.saved saved.length := by
  simp only [saveInUse, yields_bind, yields_get, yields_mapM_savePush, yields_pure, Prod.mk.injEq,
    Frame.inUseOf, saveCode]
  grind

theorem yields_restoreAll :
    Yields (restoreAll saved) env frame code next ↔
      code = restoreCode saved ∧ next = frame.restored saved.length := by
  simp [restoreAll, yields_mapM_restorePop, and_assoc, restoreCode]
  grind

def Frame.accumulatorSaved (frame : Frame) (work : Register) : List Register :=
  frame.inUseOf (([.rax, .rdx] : List Family).filter (· != work.family))

def Frame.accumulatorCode (frame : Frame) (operation : Operation) (work : Register)
    (operand : Operand) : Code :=
  accumulatorStaging operation work operand :: (saveCode (frame.accumulatorSaved work) ++
    accumulatorBody operation work ++ restoreCode (frame.accumulatorSaved work))

theorem yields_applyAccumulator : Yields (applyAccumulator op work opnd) env frame code next ↔ code =
    frame.accumulatorCode op work opnd ∧ next = frame.balanced (frame.accumulatorSaved work).length := by
  simp only [applyAccumulator, yields_bind, Prod.exists, yields_saveInUse, yields_restoreAll,
    yields_pure]
  simp [Frame.restored_saved, Frame.accumulatorSaved, Frame.accumulatorCode, eq_comm (a := code),
    eq_comm (a := next)]

def Frame.shiftCode (frame : Frame) (mnemonic : Mnemonic) (work : Register) (operand : Operand) :
    Code :=
  match operand.immediate? with
  | some count => [.binary mnemonic (.reg work) (.imm (count &&& 63))]
  | none =>
    if work.family == .rcx then shiftStaging work operand :: shiftExchanged mnemonic work
    else
      shiftStaging work operand :: (saveCode (frame.inUseOf [.rcx]) ++ shiftBody mnemonic work ++
        restoreCode (frame.inUseOf [.rcx]))

def Frame.shiftSaves (frame : Frame) (work : Register) (operand : Operand) : Nat :=
  if operand.isImmediate || work.family == .rcx then 0 else (frame.inUseOf [.rcx]).length

theorem yields_applyShift : Yields (applyShift mn work opnd) env frame code next ↔ code =
    frame.shiftCode mn work opnd ∧ next = frame.balanced (frame.shiftSaves work opnd) := by
  unfold applyShift Frame.shiftCode Frame.shiftSaves Operand.isImmediate
  cases opnd.immediate? with
  | some count => simp [eq_comm]
  | none =>
    by_cases exchanged : work.family = .rcx
    · simp [exchanged, eq_comm]
    · simp [exchanged, yields_saveInUse, yields_restoreAll, and_assoc, Frame.restored_saved]
      grind

def compares (operation : Operation) : Bool :=
  operation.family == .compare || operation.family == .floatCompare

def Frame.applied (frame : Frame) (operation : Operation) (work target : Register)
    (operand : Operand) : Code × Register :=
  match operation.family with
  | .arith | .logical | .floatArith => (applyDirect operation.mnemonic work operand, work)
  | .mul => (applyMul work operand, work)
  | .unsignedMul | .div | .rem =>
    (accumulatorStaging operation work operand ::
      (saveCode (frame.accumulatorSaved work) ++ accumulatorBody operation work ++
        restoreCode (frame.accumulatorSaved work)), work)
  | .shift => (frame.shiftCode operation.mnemonic work operand, work)
  | .compare | .floatCompare =>
    (applyDirect operation.mnemonic work operand ++
      [.unary (operation.condition.getD .sete) (.reg (target.resize 1))], target.resize 1)

def Frame.applySaves (frame : Frame) (operation : Operation) (work : Register)
    (operand : Operand) : Nat :=
  match operation.family with
  | .unsignedMul | .div | .rem => (frame.accumulatorSaved work).length
  | .shift => frame.shiftSaves work operand
  | _ => 0

theorem yields_apply :
    Yields (apply pos op work dst opnd) env frame outcome next ↔
      (compares op = true → dst.isFloat = false) ∧ outcome = frame.applied op work dst opnd ∧
      next = frame.balanced (frame.applySaves op work opnd) := by
  unfold apply Frame.applied Frame.applySaves compares
  cases op.family with
  | arith | logical | floatArith | mul => simp [eq_comm (b := outcome), eq_comm (b := next)]
  | unsignedMul | div | rem =>
    simp [yields_applyAccumulator, Frame.accumulatorCode, and_assoc]
    grind
  | shift =>
    simp [yields_applyShift, and_assoc]
    grind
  | compare | floatCompare =>
    cases dst.isFloat <;> simp [eq_comm (b := outcome), eq_comm (b := next)]

end Lower
end Nasm64
