import Nasm64.Data.Section
import Nasm64.Register.Pool
import Nasm64.Settings.Basic

/-! The state of one method body while it is lowered. -/
namespace Nasm64.Lower

/-- A frame slot that ends `offset` bytes below the frame pointer. For arrays `bytes` is the size of
one of `count` elements. -/
structure Variable where
  offset : Int64
  bytes : Int64
  count : Int64
  type : Ty
deriving Repr, Inhabited

structure Warning where
  kind : WarningKind
  position : Position
  message : String
deriving DecidableEq, Repr

/-- A declared variable, for the warning about those that are never used. -/
structure Local where
  name : String
  offset : Int64
  position : Position
deriving DecidableEq, Repr

/-- `held` are the registers that pending computations rely on, the innermost first. `depth` is the
number of bytes on the machine stack below the frame. -/
structure Frame where
  position : Int64 := 0
  scope : List (String × Variable) := []
  held : List Register := []
  labels : Nat := 0
  data : DataSection := {}
  pushes : Nat := 0
  pops : Nat := 0
  depth : Int64 := 0
  touched : List Family := []
  warnings : List Warning := []
  locals : List Local := []
  referenced : List Int64 := []
deriving Repr, Inhabited

namespace Frame

def push (frame : Frame) (register : Register) : Frame :=
  { frame with held := register :: frame.held }

/-- Gives up the innermost register. There is nothing to give up on an empty stack. -/
def pop (frame : Frame) : Frame := { frame with held := frame.held.tail }

def inUse (frame : Frame) (family : Family) : Bool :=
  frame.held.any fun register => register.family == family

/-- The first register of the class that no pending computation holds. -/
def free (frame : Frame) (isFloat : Bool) (size : Int) (excluded : List Register := []) :
    Except Register.Error Register := do
  let pool ← Register.pool isFloat size
  match pool.find? fun register =>
      !frame.inUse register.family && !excluded.any register.aliases with
  | some register => return register
  | none => .error (.exhausted isFloat size)

def touch (frame : Frame) (family : Family) : Frame :=
  if family.isCalleeSaved && !frame.touched.contains family then
    { frame with touched := family :: frame.touched }
  else frame

def reserve (frame : Frame) (size align : Int64) : Int64 × Frame :=
  let position := Word.alignUp (frame.position + max size 1) (max align 1)
  (position, { frame with position })

def allocate (frame : Frame) (name : String) (ty : Ty) : Variable × Frame :=
  let (offset, frame) := frame.reserve ty.size ty.align
  let slot : Variable := match ty with
    | .array length element => ⟨offset, element.size, Int64.ofNat length, ty⟩
    | _ => ⟨offset, ty.size, 1, ty⟩
  (slot, { frame with scope := (name, slot) :: frame.scope })

def find? (frame : Frame) (name : String) : Option Variable := frame.scope.lookup name

def refer (frame : Frame) (slot : Variable) : Frame :=
  if frame.referenced.contains slot.offset then frame
  else { frame with referenced := slot.offset :: frame.referenced }

/-- The registers in use that a call overwrites, each family once and the outermost first. -/
def liveVolatile (frame : Frame) (kept : List Family) : List Register :=
  frame.held.reverse.foldl (fun live register =>
    if !register.family.isVolatile || kept.contains register.family || live.any register.aliases then
      live
    else live ++ [register.resize 8]) []

/-- The families to preserve, in the order of the register file. -/
def savedFamilies (frame : Frame) : List Family :=
  frame.touched.mergeSort fun left right => left.code ≤ right.code

end Frame
end Nasm64.Lower
