import Nasm64.Code.Mnemonic
import Nasm64.Code.Operand

/-! Lines of assembly and their text. -/
namespace Nasm64

inductive Line where
  | plain (mnemonic : Mnemonic)
  | unary (mnemonic : Mnemonic) (operand : Operand)
  | binary (mnemonic : Mnemonic) (target source : Operand)
  | label (name : String)
  | comment (text : String)
deriving DecidableEq, Repr

abbrev Code := List Line

def Line.text : Line → String
  | plain mnemonic => "    " ++ mnemonic.name ++ "\n"
  | unary mnemonic operand => "    " ++ mnemonic.name ++ " " ++ operand.text ++ "\n"
  | binary mnemonic target source =>
    "    " ++ mnemonic.name ++ " " ++ target.text ++ ", " ++ source.text ++ "\n"
  | label name => name ++ ":\n"
  | comment text => "    ; " ++ text ++ "\n"

def Code.text (code : Code) : String := String.join (code.map Line.text)

namespace Line

def mov (target source : Operand) : Line := .binary .mov target source

def lea (target : Register) (address : Address) : Line :=
  .binary .lea (.reg target) (.place address)

def call (name : String) : Line := .unary .call (.symbol name)

def jump (name : String) : Line := .unary .jmp (.symbol name)

def jumpIfZero (name : String) : Line := .unary .je (.symbol name)

end Line
end Nasm64
