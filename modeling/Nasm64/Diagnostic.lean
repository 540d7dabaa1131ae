import Nasm64.Settings.Basic
import Nasm64.Tree.Basic

/-! Messages for the user, with the line of the source that they are about. -/
namespace Nasm64.Diagnostic

structure SourceFile where
  name : String
  content : String := ""
deriving DecidableEq, Repr, Inhabited

/-- A position in one of the source files, which are counted from zero. -/
structure Location where
  file : Int := 0
  position : Position := {}
deriving DecidableEq, Repr

/-- Positions that no source line can be shown for, and no answer given. -/
inductive Crash where
  | negativeLine
  | negativeColumn
deriving DecidableEq, Repr

structure Terminal where
  files : List SourceFile := []
  hasColour : Bool := false
deriving DecidableEq, Repr, Inhabited

inductive Severity where
  | error | warning
deriving DecidableEq, Repr

def Severity.name : Severity → String
  | error => "error"
  | warning => "warning"

def Severity.colour : Severity → String
  | error => "31"
  | warning => "33"

namespace Terminal

def paint (terminal : Terminal) (colour text : String) : String :=
  if terminal.hasColour then "\x1b[" ++ colour ++ "m" ++ text ++ "\x1b[0m" else text

def file? (terminal : Terminal) (index : Int) : Option SourceFile :=
  if index < 0 then none else terminal.files[index.toNat]?

def caret (length : Int) : String :=
  String.ofList ('^' :: List.replicate (length - 1).toNat '~')

/-- The source line and a caret below it. There is none for an unknown position. -/
def excerpt (terminal : Terminal) (location : Location) : Except Crash String :=
  let position := location.position
  match terminal.file? location.file with
  | none => .ok ""
  | some file =>
    if position.line == 0 || position.column == 0 then .ok ""
    else if position.line < 0 then .error .negativeLine
    else match (file.content.splitOn "\n")[(position.line - 1).toNat]? with
      | none => .ok ""
      | some line =>
        if position.column < 0 then .error .negativeColumn
        else
          let margin := String.ofList (List.replicate (position.column - 1).toNat ' ')
          .ok ("  " ++ line ++ "\n  " ++ margin ++ terminal.paint "32" (caret position.length) ++ "\n")

def report (terminal : Terminal) (severity : Severity) (location : Location) (message : String) :
    Except Crash String := do
  let name := ((terminal.file? location.file).map SourceFile.name).getD "unknown"
  let position := location.position
  let opening := name ++ ":" ++ toString position.line ++ ":" ++ toString position.column ++ ": " ++
    terminal.paint severity.colour (severity.name ++ ":") ++ " " ++ message ++ "\n"
  return opening ++ (← terminal.excerpt location)

def error (terminal : Terminal) (location : Location) (message : String) : Except Crash String :=
  terminal.report .error location message

/-- A warning says how to turn it off. There is none that is turned off. -/
def warning (terminal : Terminal) (settings : Settings) (kind : WarningKind) (location : Location)
    (message : String) : Except Crash String :=
  if settings.hasWarning kind then
    terminal.report .warning location (message ++ " [-W" ++ kind.name ++ "]")
  else .ok ""

end Terminal
end Nasm64.Diagnostic
