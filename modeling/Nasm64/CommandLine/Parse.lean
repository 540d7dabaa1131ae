import Nasm64.CommandLine.Flag

/-! Arguments and what they mean for a set of flags.

`--name` and `-name` take a value after `=` or from the next argument, a shorthand takes the rest of
its argument or the next one, and `--` ends the flags. -/
namespace Nasm64.CommandLine

inductive ParseError where
  | emptyName
  | unknownFlag (name : String)
  | unknownShorthand (shorthand : String)
  | needsArgument (spelled : String)
  | value (error : ValueError)
deriving DecidableEq, Repr

def ParseError.message : ParseError → String
  | emptyName => "empty flag name"
  | unknownFlag name => "unknown flag: --" ++ name
  | unknownShorthand shorthand => "unknown shorthand flag: -" ++ shorthand
  | needsArgument spelled => "flag needs an argument: " ++ spelled
  | value error => error.message

inductive Meaning where
  | terminator
  | operand
  | assign (flag value : String)
  /-- The value of the flag is the next argument. -/
  | await (flag spelled : String)
  | refuse (error : ParseError)
deriving DecidableEq, Repr

def cut (text : List Char) : String × Option String :=
  let name := String.ofList (text.takeWhile (· != '='))
  match text.dropWhile (· != '=') with
  | [] => (name, none)
  | _ :: value => (name, some (String.ofList value))

namespace FlagSet

def bare (flag : Flag) (spelled : String) : Meaning :=
  if flag.value.isBool then .assign flag.name "" else .await flag.name spelled

/-- The first prefix that an argument starts with, and a rest that is not empty. -/
def prefixed? (set : FlagSet) (text : List Char) : Option (String × String) :=
  set.prefixes.findSome? fun name =>
    match text.drop name.length with
    | [] => none
    | rest => if name.toList.isPrefixOf text then some (name, String.ofList rest) else none

/-- The meaning of a shorthand with what is attached to it. Shorthands are single bytes, so a
character of several bytes is none, and messages show it as the replacement character. -/
def shorthandMeaning (set : FlagSet) (first : Char) (attached : List Char) : Meaning :=
  let shorthand := if first.toNat < 128 then String.singleton first else "�"
  match if first.toNat < 128 then set.findShorthand? shorthand else none with
  | none => .refuse (.unknownShorthand shorthand)
  | some flag =>
    if attached.isEmpty then bare flag ("-" ++ shorthand)
    else .assign flag.name (String.ofList attached)

/-- The meaning of an argument after its dashes, when the part before `=` is the name of a flag. -/
def named? (set : FlagSet) (dashes : String) (text : List Char) : Option Meaning :=
  let (name, value) := cut text
  (set.find? name).map fun flag =>
    match value with
    | some value => .assign flag.name value
    | none => bare flag (dashes ++ name)

def meaning (set : FlagSet) (argument : String) : Meaning :=
  match argument.toList with
  | ['-', '-'] => .terminator
  | '-' :: '-' :: text =>
    match set.named? "--" text with
    | some meaning => meaning
    | none =>
      let name := (cut text).1
      .refuse (if name.isEmpty then .emptyName else .unknownFlag name)
  | '-' :: first :: rest =>
    match set.named? "-" (first :: rest) with
    | some meaning => meaning
    | none =>
      match set.prefixed? (first :: rest) with
      | some (name, value) => .assign name value
      | none => set.shorthandMeaning first rest
  | _ => .operand

def assign (set : FlagSet) (name value : String) : Except ParseError FlagSet := do
  let flags ← set.flags.mapM fun flag =>
    if flag.name == name then
      match flag.value.assign flag.name value with
      | .ok value => .ok { flag with value }
      | .error error => .error (.value error)
    else .ok flag
  return { set with flags }

/-- The flags as far as they were set, and the error that ended parsing, if there was one. -/
structure Parsed where
  set : FlagSet
  error : Option ParseError := none
deriving DecidableEq, Repr

/-- Goes on with parsing, after the flags and operands that are there already. -/
def parseFrom (set : FlagSet) : List String → Parsed
  | [] => { set }
  | argument :: rest =>
    match set.meaning argument with
    | .terminator => { set := { set with operands := set.operands ++ rest } }
    | .operand => parseFrom { set with operands := set.operands ++ [argument] } rest
    | .refuse error => { set, error }
    | .assign flag value =>
      match set.assign flag value with
      | .ok set => parseFrom set rest
      | .error error => { set, error }
    | .await flag spelled =>
      match rest with
      | [] => { set, error := some (.needsArgument spelled) }
      | value :: rest =>
        match set.assign flag value with
        | .ok set => parseFrom set rest
        | .error error => { set, error }

def parse (set : FlagSet) (arguments : List String) : Parsed :=
  parseFrom { set with operands := [] } arguments

end FlagSet
end Nasm64.CommandLine
