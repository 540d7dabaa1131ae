/-! The instructions in use. -/
namespace Nasm64

inductive Mnemonic where
  | mov | movsx | movsxd | movzx | movss | movsd | movq | movdqu | lea | xchg
  | add | sub | and | or | xor | imul | mul | idiv | div | neg | not | cqo | cdq
  | shl | shr | sar
  | cmp | test
  | sete | setne | setl | setle | setg | setge | setb | setbe | seta | setae
  | xorps | addss | addsd | subss | subsd | mulss | mulsd | divss | divsd | comiss | comisd
  | cvtss2sd | cvtsd2ss | cvtsi2ss | cvtsi2sd | cvttss2si | cvttsd2si
  | push | pop | call | jmp | je | leave | ret
deriving DecidableEq, Repr, Inhabited

def Mnemonic.name : Mnemonic → String
  | mov => "mov"
  | movsx => "movsx"
  | movsxd => "movsxd"
  | movzx => "movzx"
  | movss => "movss"
  | movsd => "movsd"
  | movq => "movq"
  | movdqu => "movdqu"
  | lea => "lea"
  | xchg => "xchg"
  | add => "add"
  | sub => "sub"
  | and => "and"
  | or => "or"
  | xor => "xor"
  | imul => "imul"
  | mul => "mul"
  | idiv => "idiv"
  | div => "div"
  | neg => "neg"
  | not => "not"
  | cqo => "cqo"
  | cdq => "cdq"
  | shl => "shl"
  | shr => "shr"
  | sar => "sar"
  | cmp => "cmp"
  | test => "test"
  | sete => "sete"
  | setne => "setne"
  | setl => "setl"
  | setle => "setle"
  | setg => "setg"
  | setge => "setge"
  | setb => "setb"
  | setbe => "setbe"
  | seta => "seta"
  | setae => "setae"
  | xorps => "xorps"
  | addss => "addss"
  | addsd => "addsd"
  | subss => "subss"
  | subsd => "subsd"
  | mulss => "mulss"
  | mulsd => "mulsd"
  | divss => "divss"
  | divsd => "divsd"
  | comiss => "comiss"
  | comisd => "comisd"
  | cvtss2sd => "cvtss2sd"
  | cvtsd2ss => "cvtsd2ss"
  | cvtsi2ss => "cvtsi2ss"
  | cvtsi2sd => "cvtsi2sd"
  | cvttss2si => "cvttss2si"
  | cvttsd2si => "cvttsd2si"
  | push => "push"
  | pop => "pop"
  | call => "call"
  | jmp => "jmp"
  | je => "je"
  | leave => "leave"
  | ret => "ret"

end Nasm64
