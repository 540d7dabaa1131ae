import Nasm64.CommandLine.Page
import Nasm64.Settings.Flags

/-! Running a program by its command line. -/
namespace Nasm64.CommandLine

inductive Request where
  | invalid (error : ParseError)
  | help
  | action (operands : List String)
deriving DecidableEq, Repr

/-- The flags after parsing, what was printed, and what is to be done. -/
structure App.Run where
  flags : FlagSet
  stdout : String := ""
  stderr : String := ""
  request : Request
deriving DecidableEq, Repr

namespace App

/-- Adds the flag for help, parses the arguments and prints the pages they ask for. -/
def run (app : App) (arguments : List String) (year : Year) : Except DefineError Run := do
  let flags ← app.flags.defineBool "help" "h" "Display this information" false
  let parsed := flags.parse arguments
  let app := { app with flags := parsed.set }
  match parsed.error with
  | some error =>
    return { flags := parsed.set, stderr := error.message ++ "\n" ++ app.usagePage,
             request := .invalid error }
  | none =>
    if parsed.set.isOn "help" then
      return { flags := parsed.set, stdout := app.helpPage year, request := .help }
    else return { flags := parsed.set, request := .action parsed.set.operands }

end App
end Nasm64.CommandLine

namespace Nasm64.Settings

open CommandLine

def warningSwitch (settings : Settings) (warning : WarningKind) : Switch where
  name := warning.name
  letter := "W"
  usage := warning.description
  enabled := some (settings.hasWarning warning)
  disabled := some false

def featureSwitch (settings : Settings) (feature : Feature) : Switch where
  name := feature.name
  letter := "F"
  usage := feature.description
  enabled := some (settings.hasFeature feature)
  disabled := some false

def warningGroup (settings : Settings) : Group where
  name := "Warnings"
  description := "Diagnostics the code generator may report."
  type := "warning"
  header := "Available Warnings:"
  switches := WarningKind.all.map settings.warningSwitch

def featureGroup (settings : Settings) : Group where
  name := "Features"
  description := "Code generation behaviours."
  type := "feature"
  header := "Available Features:"
  switches := Feature.all.map settings.featureSwitch

def defineSwitches (settings : Settings) (set : FlagSet) : Except DefineError FlagSet := do
  (← set.defineGroup settings.warningGroup).defineGroup settings.featureGroup

def isChosen (set : FlagSet) (switch : Switch) : Bool :=
  set.isOn switch.onName && !set.isOn switch.offName

/-- Takes over the switches. Turning one off wins over turning it on. -/
def applySwitches (settings : Settings) (set : FlagSet) : Settings :=
  { settings with
    hasWarning := fun warning => isChosen set (settings.warningSwitch warning)
    hasFeature := fun feature => isChosen set (settings.featureSwitch feature) }

end Nasm64.Settings
