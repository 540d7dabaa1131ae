import Nasm64.Text.Quoted

/-! Flags, their values, and sets of them. -/
namespace Nasm64.CommandLine

inductive NumberError where
  | malformed
  | outOfRange
deriving DecidableEq, Repr

def NumberError.message : NumberError → String
  | malformed => "invalid syntax"
  | outOfRange => "value out of range"

inductive ValueError where
  | notBool (text : String)
  | notInteger (flag text : String) (reason : NumberError)
deriving DecidableEq, Repr

def ValueError.message : ValueError → String
  | notBool text =>
    "invalid boolean value '" ++ text ++ "': strconv.ParseBool: parsing " ++ Text.quote text ++ ": " ++
      NumberError.malformed.message
  | notInteger flag text reason =>
    "invalid integer value '" ++ text ++ "' for --" ++ flag ++ ": strconv.Atoi: parsing " ++
      Text.quote text ++ ": " ++ reason.message

inductive Value where
  | text (value : String)
  | bool (value : Bool)
  | integer (value : Int)
  | list (values : List String)
deriving DecidableEq, Repr, Inhabited

namespace Value

def isBool : Value → Bool
  | bool _ => true
  | _ => false

def bool? (text : String) : Option Bool :=
  if ["1", "t", "T", "true", "TRUE", "True"].contains text then some true
  else if ["0", "f", "F", "false", "FALSE", "False"].contains text then some false
  else none

def readInteger (text : String) : Except NumberError Int :=
  match Text.integer? text.toList with
  | none => .error .malformed
  | some value => if Text.fitsWord value then .ok value else .error .outOfRange

/-- Takes over a value. A boolean without one becomes true, and a list grows. -/
def assign (flag : String) (value : Value) (text : String) : Except ValueError Value :=
  match value with
  | .text _ => .ok (.text text)
  | .list values => .ok (.list (values ++ [text]))
  | .bool _ =>
    if text.isEmpty then .ok (.bool true)
    else match bool? text with
      | some value => .ok (.bool value)
      | none => .error (.notBool text)
  | .integer _ =>
    match readInteger text with
    | .ok value => .ok (.integer value)
    | .error reason => .error (.notInteger flag text reason)

def shown : Value → String
  | text value => value
  | bool value => if value then "true" else "false"
  | integer value => toString value
  | list values => "[" ++ " ".intercalate values ++ "]"

end Value

/-- A flag with its present value. `initial` is the value it was defined with, as shown, and
`expected` names what it takes. -/
structure Flag where
  name : String
  shorthand : String := ""
  usage : String := ""
  initial : String := ""
  expected : String := ""
  value : Value
deriving DecidableEq, Repr, Inhabited

/-- A switch that is turned on by its letter and name, and off by `no-` in between. Each of the two
may be missing. -/
structure Switch where
  name : String
  letter : String
  usage : String := ""
  enabled : Option Bool := none
  disabled : Option Bool := none
deriving DecidableEq, Repr, Inhabited

namespace Switch

def onName (switch : Switch) : String := switch.letter ++ switch.name

def offName (switch : Switch) : String := switch.letter ++ "no-" ++ switch.name

end Switch

structure Group where
  name : String
  description : String := ""
  type : String := ""
  header : String := ""
  switches : List Switch := []
deriving DecidableEq, Repr, Inhabited

/-- Flags in the order of their definition. `prefixes` are the names of the flags that take the rest
of an argument as their value. -/
structure FlagSet where
  flags : List Flag := []
  prefixes : List String := []
  groups : List Group := []
  operands : List String := []
deriving DecidableEq, Repr, Inhabited

inductive DefineError where
  | emptyName
  | nameTwice (name : String)
  | shorthandTwice (shorthand : String)
deriving DecidableEq, Repr

def DefineError.message : DefineError → String
  | emptyName => "flag name cannot be empty"
  | nameTwice name => "flag redefined: " ++ name
  | shorthandTwice shorthand => "shorthand flag redefined: " ++ shorthand

namespace FlagSet

def find? (set : FlagSet) (name : String) : Option Flag :=
  set.flags.find? fun flag => flag.name == name

def findShorthand? (set : FlagSet) (shorthand : String) : Option Flag :=
  if shorthand.isEmpty then none
  else set.flags.find? fun flag => flag.shorthand == shorthand

def value? (set : FlagSet) (name : String) : Option Value := (set.find? name).map Flag.value

def define (set : FlagSet) (flag : Flag) : Except DefineError FlagSet :=
  if flag.name.isEmpty then .error .emptyName
  else if (set.find? flag.name).isSome then .error (.nameTwice flag.name)
  else if (set.findShorthand? flag.shorthand).isSome then .error (.shorthandTwice flag.shorthand)
  else .ok { set with flags := set.flags ++ [flag] }

/-- Defines a flag that shows its present value as the initial one. -/
def defineValue (set : FlagSet) (name shorthand usage expected : String) (value : Value) :
    Except DefineError FlagSet :=
  set.define { name, shorthand, usage, expected, value, initial := value.shown }

def defineBool (set : FlagSet) (name shorthand usage : String) (value : Bool) :
    Except DefineError FlagSet :=
  set.defineValue name shorthand usage "" (.bool value)

/-- Defines a flag that collects the rests of all arguments that start with its name. -/
def definePrefix (set : FlagSet) (name usage expected : String) : Except DefineError FlagSet := do
  let set ← set.define { name, usage, expected, value := .list [] }
  return { set with prefixes := set.prefixes ++ [name] }

def defineSwitch (set : FlagSet) (switch : Switch) : Except DefineError FlagSet := do
  let set ← match switch.enabled with
    | some value => set.defineBool switch.onName "" switch.usage value
    | none => pure set
  match switch.disabled with
  | some value => set.defineBool switch.offName "" ("Disable '" ++ switch.name ++ "'") value
  | none => pure set

def defineGroup (set : FlagSet) (group : Group) : Except DefineError FlagSet := do
  let set ← group.switches.foldlM defineSwitch set
  return { set with groups := set.groups ++ [group] }

def isOn (set : FlagSet) (name : String) : Bool := set.value? name == some (.bool true)

/-- Whether a switch was turned on, and whether it was turned off, where it can be. -/
def switchState (set : FlagSet) (switch : Switch) : Option Bool × Option Bool :=
  (switch.enabled.map fun _ => set.isOn switch.onName,
    switch.disabled.map fun _ => set.isOn switch.offName)

end FlagSet
end Nasm64.CommandLine
