/-! What a run may vary: features, warnings, target and the numbers of the calling convention. -/
namespace Nasm64

inductive Feature where
  | fastPath | asmComments | parallel
deriving DecidableEq, Repr, Inhabited

namespace Feature

def all : List Feature := [fastPath, asmComments, parallel]

def name : Feature → String
  | fastPath => "fast-path"
  | asmComments => "asm-comments"
  | parallel => "parallel"

def description : Feature → String
  | fastPath => "Evaluate four-leaf expressions into four registers without spilling."
  | asmComments => "Annotate the emitted assembly with the source statement of each block."
  | parallel => "Generate method bodies concurrently when more than one job is allowed."

def onByDefault : Feature → Bool
  | asmComments => false
  | _ => true

end Feature

inductive WarningKind where
  | narrowing | floatPrecision | unreachableCode | extra
deriving DecidableEq, Repr, Inhabited

namespace WarningKind

def all : List WarningKind := [narrowing, floatPrecision, unreachableCode, extra]

def name : WarningKind → String
  | narrowing => "narrowing"
  | floatPrecision => "float-precision"
  | unreachableCode => "unreachable-code"
  | extra => "extra"

def description : WarningKind → String
  | narrowing => "Warn on casts that drop significant bits."
  | floatPrecision => "Warn on conversions that lose floating point precision."
  | unreachableCode => "Warn about statements after a return."
  | extra => "Enable extra miscellaneous warnings."

def onByDefault : WarningKind → Bool
  | narrowing => false
  | _ => true

end WarningKind

/-- The system to assemble and link for. It does not change the code. -/
inductive Target where
  | windows | linux | wsl
deriving DecidableEq, Repr, Inhabited

namespace Target

def all : List Target := [windows, linux, wsl]

def name : Target → String
  | windows => "windows"
  | linux => "linux"
  | wsl => "wsl"

def nameOfCode (code : Int) : String :=
  if code < 0 then "unknown" else (all[code.toNat]?).elim "unknown" name

end Target

structure Toolchain where
  assembler : String
  assemblerArguments : List String
  linker : String
  linkerArguments : List String
  objectSuffix : String
deriving DecidableEq, Repr

def Target.toolchain : Target → Toolchain
  | windows => ⟨"nasm", ["-f", "win64"], "gcc", [], ".obj"⟩
  | wsl => ⟨"nasm", ["-f", "win64"], "x86_64-w64-mingw32-gcc", [], ".obj"⟩
  | linux => ⟨"nasm", ["-f", "elf64"], "gcc", ["-no-pie"], ".o"⟩

structure Settings where
  hasFeature : Feature → Bool := Feature.onByDefault
  hasWarning : WarningKind → Bool := WarningKind.onByDefault
  target : Target := .linux
  stackAlignment : Int64 := 16
  shadowSpace : Int64 := 32
  jobs : Int := 1
  linkerArguments : List String := []
deriving Inhabited

namespace Settings

def setFeature (settings : Settings) (feature : Feature) (on : Bool) : Settings :=
  { settings with
    hasFeature := fun other => if other = feature then on else settings.hasFeature other }

def setWarning (settings : Settings) (warning : WarningKind) (on : Bool) : Settings :=
  { settings with
    hasWarning := fun other => if other = warning then on else settings.hasWarning other }

end Settings
end Nasm64
