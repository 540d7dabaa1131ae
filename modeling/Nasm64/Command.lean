import Nasm64.CommandLine.App
import Nasm64.Diagnostic
import Nasm64.Document.Program
import Nasm64.Lower.Program

/-! The command: reads a checked program, generates its assembly, and reports what is wrong. -/
namespace Nasm64.Command

open CommandLine (App FlagSet Year)
open Diagnostic (Terminal Location SourceFile)

/-- What the command needs from its surroundings. Errors are given as text. -/
structure Host (m : Type → Type) where
  read : String → m (Except String String)
  write : String → String → m (Except String Unit)
  /-- Makes an executable of an assembly text. -/
  link : Settings → String → String → m (Except String Unit)

structure Outcome where
  exit : Nat := 0
  stdout : String := ""
  stderr : String := ""
deriving DecidableEq, Repr

def description : String :=
  "A Windows x64 NASM backend. Reads a type-checked program and emits assembly, then assembles and links it."

def flags (settings : Settings) : Except CommandLine.DefineError FlagSet := do
  let set ← FlagSet.defineValue {} "output" "o" "Place the output into <file>." "file" (.text "")
  let set ← set.defineValue "target" "t" "Select the assembler and linker: windows, linux or wsl."
    "target" (.text "")
  let set ← set.defineBool "asm" "S" "Stop after generating assembly." false
  let set ← set.defineBool "verbose" "v" "Log every pipeline stage." false
  let set ← set.defineValue "jobs" "j" "Generate up to <n> methods concurrently." "n" (.integer 1)
  let set ← set.defineValue "linker-arg" "L" "Pass an argument to the linker." "arg" (.list [])
  let set ← settings.defineSwitches set
  set.definePrefix "W" "Set warnings by name (e.g., -Wall, -Wno-all)" "warning"

def app (flags : FlagSet) : App where
  name := "x64gen"
  synopsis := "[options] <program.json>"
  description := description
  authors := ["xplshn"]
  repository := "<https://github.com/xplshn/x64gen>"
  since := 2025
  flags := flags

def textOf (set : FlagSet) (name : String) : String :=
  match set.value? name with
  | some (.text value) => value
  | _ => ""

def integerOf (set : FlagSet) (name : String) : Int :=
  match set.value? name with
  | some (.integer value) => value
  | _ => 0

def listOf (set : FlagSet) (name : String) : List String :=
  match set.value? name with
  | some (.list values) => values
  | _ => []

/-- The settings before the target is chosen: switches first, then the warnings given by name. -/
def switched (set : FlagSet) : Settings :=
  (listOf set "W").foldl (fun settings name => settings.applyFlag ("-W" ++ name))
    (Settings.applySwitches {} set)

def settingsOf (set : FlagSet) : Except UnknownTarget Settings := do
  let settings ← (switched set).setTarget (textOf set "target")
  return { settings with
    jobs := max (integerOf set "jobs") 1
    linkerArguments := settings.linkerArguments ++ listOf set "linker-arg" }

def abort (terminal : Terminal) (location : Location) (message : String) (earlier : String := "") :
    Outcome :=
  match terminal.error location message with
  | .ok text => { exit := 1, stderr := earlier ++ text }
  | .error _ => { exit := 2, stderr := earlier }

/-- The name of a file without what follows the last dot of its last part. -/
def stem (path : String) : String :=
  let (last, outer) := path.toList.reverse.span (· != '/')
  match last.dropWhile (· != '.') with
  | [] => path
  | _ :: rest => String.ofList (rest ++ outer).reverse

def outputPath (set : FlagSet) (settings : Settings) (input : String) : String :=
  let given := textOf set "output"
  if !given.isEmpty then given
  else if set.isOn "asm" then stem input ++ ".asm"
  else if settings.target == .linux then "a.out"
  else "a.exe"

/-- The source file that a program names, for excerpts, as far as it can be read. -/
def sourceFile {m : Type → Type} [Monad m] (host : Host m) (input : String) (program : Program) :
    m SourceFile := do
  if program.file.isEmpty then return { name := input }
  else match ← host.read program.file with
    | .ok content => return { name := program.file, content }
    | .error _ => return { name := program.file }

def warningText (terminal : Terminal) (settings : Settings) (warnings : List Lower.Warning) :
    Except Diagnostic.Crash String := do
  let texts ← warnings.mapM fun warning =>
    terminal.warning settings warning.kind { position := warning.position } warning.message
  return String.join texts

def deliver {m : Type → Type} [Monad m] (host : Host m) (terminal : Terminal) (set : FlagSet)
    (settings : Settings) (input text stderr : String) : m Outcome := do
  let path := outputPath set settings input
  if set.isOn "asm" then
    match ← host.write path text with
    | .ok _ => return { stderr }
    | .error error =>
      return abort terminal {} ("could not write '" ++ path ++ "': " ++ error) stderr
  else
    match ← host.link settings path text with
    | .ok _ => return { stderr }
    | .error error => return abort terminal {} ("assembler/linker failed: " ++ error) stderr

def compile {m : Type → Type} [Monad m] (host : Host m) (set : FlagSet) (settings : Settings)
    (input : String) (program : Program) : m Outcome := do
  let terminal : Terminal := { files := [← sourceFile host input program] }
  match program.generate settings with
  | .error (.failure failure) =>
    return abort terminal { position := failure.position } failure.summary
  | .error (.fault _) => return { exit := 2 }
  | .ok assembly =>
    match warningText terminal settings assembly.warnings with
    | .error _ => return { exit := 2 }
    | .ok stderr => deliver host terminal set settings input assembly.text stderr

def act {m : Type → Type} [Monad m] (host : Host m) (set : FlagSet) (inputs : List String) :
    m Outcome := do
  match settingsOf set with
  | .error error => return abort {} {} error.message
  | .ok settings =>
    match inputs with
    | [input] =>
      match ← host.read input with
      | .error error => return abort {} {} ("could not read file '" ++ input ++ "': " ++ error)
      | .ok text =>
        match Document.read text with
        | .error error => return abort {} {} (input ++ ": " ++ error.message)
        | .ok program => compile host set settings input program
    | _ =>
      return abort {} {} ("expected exactly one input program, got " ++ toString inputs.length)

def run {m : Type → Type} [Monad m] (host : Host m) (arguments : List String) (year : Year) :
    m Outcome := do
  match flags {} >>= fun set => (app set).run arguments year with
  | .error error => return { exit := 2, stderr := error.message ++ "\n" }
  | .ok result =>
    match result.request with
    | .invalid _ => return { exit := 1, stdout := result.stdout, stderr := result.stderr }
    | .help => return { stdout := result.stdout, stderr := result.stderr }
    | .action inputs => act host result.flags inputs

end Nasm64.Command
