import Nasm64.Settings.Basic
import Nasm64.Text.Case

/-! Settings by the names that a user gives them. -/
namespace Nasm64

structure UnknownTarget where
  name : String
deriving DecidableEq, Repr

def UnknownTarget.message (error : UnknownTarget) : String :=
  "unsupported target '" ++ error.name ++ "'. Supported: 'windows', 'linux', 'wsl'"

namespace Settings

/-- Selects a target by name, without regard to case. No name means the host. -/
def setTarget (settings : Settings) (name : String) : Except UnknownTarget Settings :=
  if name.isEmpty then .ok { settings with target := .linux }
  else match Target.all.find? fun target => target.name == Text.toLower name with
    | some target => .ok { settings with target }
    | none => .error ⟨name⟩

def applyWarning (settings : Settings) (name : String) (on : Bool) : Settings :=
  if name == "all" then { settings with hasWarning := fun _ => on }
  else match WarningKind.all.find? fun warning => warning.name == name with
    | some warning => settings.setWarning warning on
    | none => settings

def applyFeature (settings : Settings) (name : String) (on : Bool) : Settings :=
  match Feature.all.find? fun feature => feature.name == name with
  | some feature => settings.setFeature feature on
  | none => settings

/-- Applies a switch without its dash. Names without a letter in front are those of warnings. -/
def applySwitch (settings : Settings) (switch : List Char) : Settings :=
  match switch with
  | 'W' :: 'n' :: 'o' :: '-' :: name => settings.applyWarning (String.ofList name) false
  | 'W' :: name => settings.applyWarning (String.ofList name) true
  | 'F' :: 'n' :: 'o' :: '-' :: name => settings.applyFeature (String.ofList name) false
  | 'F' :: name => settings.applyFeature (String.ofList name) true
  | name => settings.applyWarning (String.ofList name) true

/-- Applies a switch such as `-Wno-extra` or `-Ffast-path`. Unknown names change nothing. -/
def applyFlag (settings : Settings) (flag : String) : Settings :=
  match flag.toList with
  | '-' :: switch => settings.applySwitch switch
  | switch => settings.applySwitch switch

end Settings
end Nasm64
