import Nasm64.CommandLine.Parse
import Nasm64.Text.Case
import Nasm64.Text.Wrap

/-! Usage and help pages. Widths are counted in bytes, and padding in characters. -/
namespace Nasm64.CommandLine

structure Year where
  number : Int
  text : String := toString number
deriving DecidableEq, Repr

structure App where
  name : String
  synopsis : String := ""
  description : String := ""
  authors : List String := []
  repository : String := ""
  since : Int := 0
  width : Int := 0
  flags : FlagSet := {}
deriving DecidableEq, Repr, Inhabited

def indent (level : Nat) : String := String.ofList (List.replicate (4 * level) ' ')

def Flag.spelling (flag : Flag) : String :=
  let isBool := flag.value.isBool
  if flag.shorthand.isEmpty then
    "--" ++ flag.name ++ (if isBool || flag.expected.isEmpty then "" else "=" ++ flag.expected)
  else
    let taken := if isBool then "" else " <" ++ flag.expected ++ ">"
    "-" ++ flag.shorthand ++ taken ++ ", --" ++ flag.name ++ taken

def Flag.shownInitial (flag : Flag) : String :=
  if flag.value.isBool || ["", "false", "[]"].contains flag.initial then ""
  else "|" ++ flag.initial ++ "|"

def widest (texts : List String) : Nat := (texts.map String.utf8ByteSize).foldl max 0

/-- One line of a page: a name, what it means, and a mark on the right. The meaning is wrapped, and
further lines stand below its first one. -/
def entryLines (total : Int) (left usage right : String) (leftWidth usageWidth : Nat) : String :=
  let room := total - (8 + leftWidth + 3 + right.utf8ByteSize : Nat)
  let room := (max room 10).toNat
  let lines := Text.wrap room usage
  let first := lines.head?.getD ""
  let opening := indent 2 ++ Text.padRight leftWidth left ++ " "
  let opening :=
    if right.isEmpty then opening ++ first ++ "\n"
    else opening ++ Text.padRight (min usageWidth room) first ++ "  " ++ right ++ "\n"
  let margin := indent 2 ++ Text.padRight (leftWidth + 1) ""
  opening ++ String.join (lines.tail.map fun line => margin ++ line ++ "\n")

namespace FlagSet

def isSwitch (set : FlagSet) (name : String) : Bool :=
  set.groups.any fun group => group.switches.any fun switch =>
    name == switch.onName || name == switch.offName

/-- The plain flags by name, without those that take the rest of an argument and without switches. -/
def options (set : FlagSet) : List Flag :=
  let plain := set.flags.filter fun flag =>
    !(set.prefixes.contains flag.name || set.isSwitch flag.name)
  plain.mergeSort fun left right => left.name ≤ right.name

/-- The mark of a switch: whether it is on and was not turned off. -/
def switchMark (set : FlagSet) (switch : Switch) : String :=
  match set.switchState switch with
  | (some true, disabled) => if disabled == some true then "|-|" else "|x|"
  | _ => "|-|"

end FlagSet

namespace Group

def letter (group : Group) : String := (group.switches.head?.map Switch.letter).getD ""

/-- The width that the general forms of the switches of a group ask for, with the name of the group
less a final `s` as the type. -/
def formWidth (group : Group) : Nat :=
  let name := group.name.toList
  let type := if name.getLast? == some 's' then name.dropLast else name
  6 + group.letter.utf8ByteSize + Text.lowerBytes (String.ofList type)

def page (group : Group) (set : FlagSet) (total : Int) (leftWidth usageWidth : Nat) : String :=
  if group.switches.isEmpty then ""
  else
    let type := if group.type.isEmpty then "flag" else group.type
    let form := fun text verb =>
      indent 2 ++ Text.padRight leftWidth text ++ " " ++ verb ++ " a specific " ++ type ++ "\n"
    let header := if group.header.isEmpty then "" else indent 1 ++ group.header ++ "\n"
    let switches := group.switches.mergeSort fun left right => left.name ≤ right.name
    "\n" ++ indent 1 ++ group.name ++ "\n" ++
      form ("-" ++ group.letter ++ "<" ++ type ++ ">") "Enable" ++
      form ("-" ++ group.letter ++ "no-<" ++ type ++ ">") "Disable" ++ header ++
      String.join (switches.map fun switch =>
        entryLines total switch.name switch.usage (set.switchMark switch) leftWidth usageWidth)

end Group

namespace App

def pageWidth (app : App) : Int := if 0 < app.width then app.width else 80

def usageLine (app : App) : String :=
  let synopsis := if app.synopsis.isEmpty then "<options> [inputs] ..." else app.synopsis
  "Usage: " ++ app.name ++ " " ++ synopsis ++ "\n"

def optionLines (app : App) (leftWidth usageWidth : Nat) : String :=
  let options := app.flags.options
  if options.isEmpty then ""
  else
    "\n" ++ indent 1 ++ "Options\n" ++ String.join (options.map fun flag =>
      entryLines app.pageWidth flag.spelling flag.usage flag.shownInitial leftWidth usageWidth)

def usagePage (app : App) : String :=
  let options := app.flags.options
  app.usageLine ++
    app.optionLines (widest (options.map Flag.spelling)) (widest (options.map Flag.usage)) ++
    "\nRun '" ++ app.name ++ " --help' for all available options and flags.\n"

def groupWidth (group : Group) : Nat :=
  if group.switches.isEmpty then 0
  else max group.formWidth (widest (group.switches.map Switch.name))

def leftWidth (app : App) : Nat :=
  (app.flags.groups.map groupWidth).foldl max (widest (app.flags.options.map Flag.spelling))

def usageWidth (app : App) : Nat :=
  max (widest (app.flags.options.map Flag.usage))
    (widest (app.flags.groups.flatMap fun group => group.switches.map Switch.usage))

/-- The years from the first one on, as far as that is in the past. -/
def years (app : App) (year : Year) : String :=
  if 0 < app.since && app.since < year.number then toString app.since ++ "-" ++ year.text
  else year.text

def angled (text : String) : String :=
  String.ofList (text.toList.map fun c => if c == '[' then '<' else if c == ']' then '>' else c)

def helpPage (app : App) (year : Year) : String :=
  let leftWidth := app.leftWidth
  let usageWidth := app.usageWidth
  let repository :=
    if app.repository.isEmpty then ""
    else indent 1 ++ "For more details refer to " ++ app.repository ++ "\n"
  let synopsis :=
    if app.synopsis.isEmpty then ""
    else
      "\n" ++ indent 1 ++ "Synopsis\n" ++ indent 2 ++ app.name ++ " " ++ angled app.synopsis ++ "\n"
  let description :=
    if app.description.isEmpty then ""
    else "\n" ++ indent 1 ++ "Description\n" ++ indent 2 ++ app.description ++ "\n"
  let groups := app.flags.groups.mergeSort fun left right => left.name ≤ right.name
  "\n" ++ indent 1 ++ "Copyright (c) " ++ app.years year ++ ": " ++ ", ".intercalate app.authors ++
    " and contributors\n" ++ repository ++ synopsis ++ description ++
    app.optionLines leftWidth usageWidth ++
    String.join (groups.map fun group => group.page app.flags app.pageWidth leftWidth usageWidth)

end App
end Nasm64.CommandLine
