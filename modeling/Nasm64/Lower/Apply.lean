import Nasm64.Lower.Move

/-! The code of a binary operator on a register and an operand. -/
namespace Nasm64.Lower

/-- Stages a constant that does not fit its instruction through the scratch register. -/
def encoded (operand : Operand) (size : Int) : Code × Operand :=
  if operand.encodable size then ([], operand)
  else ([.mov (.reg .scratch) operand], .reg .scratch)

def applyDirect (mnemonic : Mnemonic) (work : Register) (operand : Operand) : Code :=
  let (staging, operand) := encoded operand work.size
  staging ++ [.binary mnemonic (.reg work) operand]

/-- Bytes are multiplied at 32 bits, since there is no such instruction for bytes. -/
def applyMul (work : Register) (operand : Operand) : Code :=
  if 1 < work.size then applyDirect .imul work operand
  else
    let wide := work.resize 4
    let half := Register.scratch.resize 4
    let widened : Line := .binary .movsx (.reg wide) (.reg work)
    if operand.isImmediate then [widened, .binary .imul (.reg wide) operand]
    else
      [widened, .binary .movsx (.reg half) operand, .binary .imul (.reg wide) (.reg half)]

def Frame.inUseOf (frame : Frame) (families : List Family) : List Register :=
  (families.filter frame.inUse).map fun family => ⟨family, 8⟩

def saveInUse (families : List Family) : Lower (Code × List Register) := do
  let saved := (← get).inUseOf families
  let code ← saved.mapM savePush
  return (code.flatten, saved)

def restoreAll (saved : List Register) : Lower Code := do
  return (← saved.reverse.mapM restorePop).flatten

def widening (operation : Operation) : Mnemonic := if operation.isSigned then .movsx else .movzx

/-- Brings the second operand of an accumulator instruction to the scratch register. -/
def accumulatorStaging (operation : Operation) (work : Register) (operand : Operand) : Line :=
  let scratch := Register.scratch.resize (max work.size 4)
  if !operand.isImmediate && work.size < 4 then .binary (widening operation) (.reg scratch) operand
  else .mov (.reg scratch) operand

def accumulatorLoading (operation : Operation) (work : Register) : Code :=
  let accumulator := Register.accumulator.resize (max work.size 4)
  if work.size < 4 then [.binary (widening operation) (.reg accumulator) (.reg work)]
  else if work.family != .rax then [.mov (.reg accumulator) (.reg work)]
  else []

def accumulatorExtension (operation : Operation) (work : Register) : Code :=
  if operation.family == .unsignedMul then []
  else if operation.isSigned then [.plain (if max work.size 4 == 8 then .cqo else .cdq)]
  else [.binary .xor (.reg ⟨.rdx, 4⟩) (.reg ⟨.rdx, 4⟩)]

def accumulatorResult (operation : Operation) (work : Register) : Register :=
  if operation.family == .rem then ⟨.rdx, max work.size 4⟩
  else Register.accumulator.resize (max work.size 4)

def accumulatorStoring (operation : Operation) (work : Register) : Code :=
  let result := accumulatorResult operation work
  if result.aliases work then []
  else [.mov (.reg (work.resize (max work.size 4))) (.reg result)]

def accumulatorBody (operation : Operation) (work : Register) : Code :=
  accumulatorLoading operation work ++ accumulatorExtension operation work ++
    [.unary operation.mnemonic (.reg (Register.scratch.resize (max work.size 4)))] ++
    accumulatorStoring operation work

/-- The instructions that read and write `rax` and `rdx`. Operands narrower than 32 bits are
widened first. -/
def applyAccumulator (operation : Operation) (work : Register) (operand : Operand) :
    Lower Code := do
  let (saving, saved) ← saveInUse (([.rax, .rdx] : List Family).filter (· != work.family))
  let restoring ← restoreAll saved
  return accumulatorStaging operation work operand :: saving ++ accumulatorBody operation work ++
    restoring

def shiftBody (mnemonic : Mnemonic) (work : Register) : Code :=
  [.mov (.reg ⟨.rcx, 4⟩) (.reg (Register.scratch.resize 4)),
    .binary mnemonic (.reg work) (.reg ⟨.rcx, 1⟩)]

/-- A shift of `rcx` itself, which changes places with the scratch register. -/
def shiftExchanged (mnemonic : Mnemonic) (work : Register) : Code :=
  [.binary .xchg (.reg ⟨.rcx, 8⟩) (.reg .scratch),
    .binary mnemonic (.reg (Register.scratch.resize work.size)) (.reg ⟨.rcx, 1⟩),
    .mov (.reg work) (.reg (Register.scratch.resize work.size))]

def shiftStaging (work : Register) (operand : Operand) : Line :=
  .mov (.reg (Register.scratch.resize work.size)) operand

def applyShift (mnemonic : Mnemonic) (work : Register) (operand : Operand) : Lower Code := do
  match operand.immediate? with
  | some count => return [.binary mnemonic (.reg work) (.imm (count &&& 63))]
  | none =>
    if work.family == .rcx then return shiftStaging work operand :: shiftExchanged mnemonic work
    else
      let (saving, saved) ← saveInUse [.rcx]
      let restoring ← restoreAll saved
      return shiftStaging work operand :: saving ++ shiftBody mnemonic work ++ restoring

/-- Computes `work op operand` and tells where the result is. Comparisons set `target`. -/
def apply (position : Position) (operation : Operation) (work target : Register)
    (operand : Operand) : Lower (Code × Register) :=
  match operation.family with
  | .arith | .logical | .floatArith => return (applyDirect operation.mnemonic work operand, work)
  | .mul => return (applyMul work operand, work)
  | .unsignedMul | .div | .rem => return (← applyAccumulator operation work operand, work)
  | .shift => return (← applyShift operation.mnemonic work operand, work)
  | .compare | .floatCompare =>
    if target.isFloat then fail position (.floatComparison target)
    else
      let result := target.resize 1
      return (applyDirect operation.mnemonic work operand ++
        [.unary (operation.condition.getD .sete) (.reg result)], result)

end Nasm64.Lower
