import Nasm64.Code.Line

/-! What lowering a node gives: code, and where its value is to be found. -/
namespace Nasm64

/-- An operand that needs no code, code that leaves its value in a register, or code alone. -/
inductive Fragment (γ ω : Type) where
  | inline (operand : ω)
  | value (code : γ) (register : Register)
  | effect (code : γ)
deriving Repr

/-- The three forms of a fragment. Other numbers are shapes that no fragment has. -/
inductive Shape where
  | inline | value | effect
  | other (code : Int)
deriving DecidableEq, Repr

namespace Shape

def name : Shape → String
  | inline => "Inline"
  | value => "MultilineResulted"
  | effect => "Multiline"
  | other code => "Kind(" ++ toString code ++ ")"

def ofCode (code : Int) : Shape :=
  if code == 0 then inline
  else if code == 1 then value
  else if code == 2 then effect
  else other code

end Shape

structure Variance where
  expected : List Shape
  actual : Shape
  node : Option String
deriving DecidableEq, Repr

def Variance.message (variance : Variance) : String :=
  "unexpected " ++ variance.actual.name ++ " result for " ++ variance.node.getD "<unknown node>" ++
    ", expected one of [" ++ ", ".intercalate (variance.expected.map Shape.name) ++ "]"

/-- Sequences of instructions in some representation. -/
class Emission (γ : Type) extends Append γ where
  nothing : γ
  isNothing : γ → Bool

instance : Emission String where
  nothing := ""
  isNothing := String.isEmpty

instance {α : Type} : Emission (List α) where
  nothing := []
  isNothing := List.isEmpty

namespace Fragment

variable {γ ω : Type}

def shape : Fragment γ ω → Shape
  | inline _ => .inline
  | value _ _ => .value
  | effect _ => .effect

def code [Emission γ] : Fragment γ ω → γ
  | inline _ => Emission.nothing
  | value lines _ => lines
  | effect lines => lines

/-- The operand that stands for the value, when there is one. -/
def operand? (ofRegister : Register → ω) : Fragment γ ω → Option ω
  | inline operand => some operand
  | value _ register => some (ofRegister register)
  | effect _ => none

/-- The operand of a fragment, provided its shape is one of those allowed. -/
def finish (ofRegister : Register → ω) (allowed : List Shape) (node : Option String)
    (fragment : Fragment γ ω) : Except Variance (Option ω) :=
  if allowed.contains fragment.shape then .ok (fragment.operand? ofRegister)
  else .error ⟨allowed, fragment.shape, node⟩

/-- Puts code in front. An inline operand has no code to put it in front of. -/
def prepend? [Emission γ] (before : γ) (fragment : Fragment γ ω) : Option (Fragment γ ω) :=
  if Emission.isNothing before then some fragment
  else match fragment with
    | inline _ => none
    | value lines register => some (value (before ++ lines) register)
    | effect lines => some (effect (before ++ lines))

end Fragment

abbrev Lowered := Fragment Code Operand

end Nasm64
