import Nasm64.Code.Fragment
import Nasm64.Conversion.Standard
import Nasm64.Word

/-! The code of a conversion. -/
namespace Nasm64.Conversion

inductive Source where
  | register (register : Register)
  | memory (size : Int) (address : Address)
  | constant (value : Int64)
deriving DecidableEq, Repr

namespace Source

def operand : Source → Operand
  | .register source => .reg source
  | .memory size address => .mem size address
  | .constant value => .imm value

def isFloatScratch : Source → Bool
  | .register source => source.aliases .floatScratch
  | _ => false

end Source

def floatMove (size : Int) : Mnemonic := if size == 4 then .movss else .movsd

def review (target : Scalar) : Source → Lowered
  | .constant value => .inline (.imm (Word.fold value target.bytes target.isSigned))
  | .register source => .value [] (source.resize target.bytes)
  | .memory _ address => .inline (.mem target.bytes address)

/-- Widens into the destination. A constant is widened on the spot. -/
def extend (source target : Scalar) (rule : Rule) (origin : Source) (destination : Register) :
    Lowered :=
  match origin with
  | .constant value => .inline (.imm (Word.fold value source.bytes source.isSigned))
  | _ =>
    let half := Register.scratch.resize 4
    let code : Code :=
      if rule.kind == .stagedExtend then
        [.mov (.reg half) origin.operand,
          if source.isSigned then .binary .movsxd (.reg (destination.resize 8)) (.reg half)
          else .mov (.reg (destination.resize 4)) (.reg half)]
      else if rule.mnemonic == .mov then [.mov (.reg (destination.resize 4)) origin.operand]
      else [.binary rule.mnemonic (.reg (destination.resize target.bytes)) origin.operand]
    .value code (destination.resize target.bytes)

def settleFloat (target : Scalar) (destination : Register) : Line :=
  .binary (floatMove target.bytes) (.reg (destination.resize target.bytes)) (.reg .floatScratch)

def floatToFloat (target : Scalar) (rule : Rule) (origin : Source) (destination : Register) :
    Lowered :=
  .value [.binary rule.mnemonic (.reg .floatScratch) origin.operand, settleFloat target destination]
    (destination.resize target.bytes)

/-- Widens an integer in the scratch register where the instruction cannot read it directly, and the
operand that it then reads. -/
def staging (source : Scalar) (origin : Source) : Code × Operand :=
  let half := Register.scratch.resize 4
  match origin with
  | .constant value =>
    ([.mov (.reg .scratch) (.imm (Word.fold value source.bytes source.isSigned))], .reg .scratch)
  | _ =>
    if source.bytes < 4 then
      ([.binary (if source.isSigned then .movsx else .movzx) (.reg half) origin.operand], .reg half)
    else if source.bytes == 4 && !source.isSigned then
      ([.mov (.reg half) origin.operand], .reg .scratch)
    else ([], origin.operand)

def integerToFloat (source target : Scalar) (rule : Rule) (origin : Source)
    (destination : Register) : Lowered :=
  let (code, operand) := staging source origin
  .value
    (code ++ [.binary rule.mnemonic (.reg .floatScratch) operand, settleFloat target destination])
    (destination.resize target.bytes)

/-- Truncates by way of the float scratch register. A result narrower than 32 bits goes through
the scratch register, and an unsigned one of 32 bits through all 64. -/
def floatToInteger (source target : Scalar) (rule : Rule) (origin : Source)
    (destination : Register) : Lowered :=
  let half := Register.scratch.resize 4
  let staging : Code :=
    if origin.isFloatScratch then []
    else [.binary (floatMove source.bytes) (.reg .floatScratch) origin.operand]
  let truncation : Code :=
    if target.bytes == 8 || (target.bytes == 4 && target.isSigned) then
      [.binary rule.mnemonic (.reg (destination.resize target.bytes)) (.reg .floatScratch)]
    else if target.bytes == 4 then
      [.binary rule.mnemonic (.reg (destination.resize 8)) (.reg .floatScratch)]
    else
      [.binary rule.mnemonic (.reg half) (.reg .floatScratch),
        .mov (.reg (destination.resize 4)) (.reg half)]
  .value (staging ++ truncation) (destination.resize target.bytes)

/-- The code of a rule. Results that need instructions land in the destination. -/
def apply (source target : Scalar) (rule : Rule) (origin : Source) (destination : Register) :
    Lowered :=
  match rule.kind with
  | .review => review target origin
  | .signExtend | .zeroExtend | .stagedExtend => extend source target rule origin destination
  | .floatToFloat => floatToFloat target rule origin destination
  | .integerToFloat => integerToFloat source target rule origin destination
  | .floatToInteger => floatToInteger source target rule origin destination

/-- Converts a value of one type to another. A rule is only found between scalars. -/
def convert (source target : Ty) (origin : Source) (destination : Register) :
    Except Unsupported Lowered := do
  let rule ← between source target
  return apply (source.scalar?.getD .ptr) (target.scalar?.getD .ptr) rule origin destination

end Nasm64.Conversion
