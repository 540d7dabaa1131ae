import Nasm64.Ty.Basic
import Nasm64.Word

/-! Sizes, alignments and field offsets, in 64-bit words that wrap. -/
namespace Nasm64.Ty

mutual

def align : Ty → Int64
  | prim primitive => Int64.ofNat primitive.bytes
  | void => 1
  | pointer _ => 8
  | array _ element => element.align
  | struct _ fields => alignFields fields
termination_by structural ty => ty

def alignFields : List (String × Ty) → Int64
  | [] => 1
  | (_, ty) :: fields => max ty.align (alignFields fields)
termination_by structural fields => fields

end

mutual

def size : Ty → Int64
  | prim primitive => Int64.ofNat primitive.bytes
  | void => 0
  | pointer _ => 8
  | array length element => element.size * Int64.ofNat length
  | struct _ fields => Word.alignUp (extent 0 fields) (alignFields fields)
termination_by structural ty => ty

/-- The first byte after the last field, the first one being placed from `start` on. -/
def extent (start : Int64) : List (String × Ty) → Int64
  | [] => start
  | (_, ty) :: fields => extent (Word.alignUp start ty.align + ty.size) fields
termination_by structural fields => fields

end

structure Field where
  name : String
  type : Ty
  offset : Int64
deriving Repr, Inhabited

def placeFields (start : Int64) : List (String × Ty) → List Field
  | [] => []
  | (name, ty) :: fields =>
    let offset := Word.alignUp start ty.align
    ⟨name, ty, offset⟩ :: placeFields (offset + ty.size) fields

def fields : Ty → List Field
  | struct _ fields => placeFields 0 fields
  | _ => []

def field? (ty : Ty) (name : String) : Option Field :=
  ty.fields.find? fun field => field.name == name

def registerSize (ty : Ty) : Int :=
  if ty.isArray || ty.isPointer then 8 else ty.size.toInt

end Nasm64.Ty
