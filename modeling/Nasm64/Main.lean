import Nasm64.Command
import Nasm64.CommandLine.Calendar

/-! The executable. -/
namespace Nasm64.Command

def failureText (path : String) : IO.Error → String
  | .noFileOrDirectory .. => "open " ++ path ++ ": no such file or directory"
  | .permissionDenied .. => "open " ++ path ++ ": permission denied"
  | error => toString error

def attempt {α : Type} (path : String) (action : IO α) : IO (Except String α) :=
  try return .ok (← action)
  catch error => return .error (failureText path error)

def systemHost : Host IO where
  read path := attempt path (IO.FS.readFile path)
  write path text := attempt path (IO.FS.writeFile path text)
  link _ _ _ := return .error "starting the assembler is not supported"

def presentYear : IO Int := do
  let (_, path) ← IO.FS.createTempFile
  let modified := (← path.metadata).modified
  IO.FS.removeFile path
  return CommandLine.Calendar.yearOfSeconds modified.sec

end Nasm64.Command

def main (arguments : List String) : IO UInt32 := do
  let year ← Nasm64.Command.presentYear
  let outcome ← Nasm64.Command.run Nasm64.Command.systemHost arguments { number := year }
  IO.print outcome.stdout
  IO.eprint outcome.stderr
  return outcome.exit.toUInt32
