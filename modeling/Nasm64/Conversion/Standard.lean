import Nasm64.Code.Mnemonic
import Nasm64.Conversion.Table
import Nasm64.Ty.Basic

/-! The conversions between scalars, family by family. -/
namespace Nasm64.Conversion

inductive Kind where
  /-- The low bits are read again at another type and need no instruction. -/
  | review
  | signExtend
  | zeroExtend
  /-- From 32 to 64 bits across a change of sign, by way of the scratch register. -/
  | stagedExtend
  | floatToFloat
  | integerToFloat
  | floatToInteger
deriving DecidableEq, Repr, Inhabited

def Kind.code : Kind → Nat
  | review => 0
  | signExtend => 1
  | zeroExtend => 2
  | stagedExtend => 3
  | floatToFloat => 4
  | integerToFloat => 5
  | floatToInteger => 6

structure Rule where
  kind : Kind
  mnemonic : Mnemonic
deriving DecidableEq, Repr, Inhabited

abbrev Rules := List (Entry Scalar Rule)

def integers : List Primitive := [.i8, .i16, .i32, .i64, .u8, .u16, .u32, .u64]

/-- Narrowing only reviews. Widening follows the sign of the source, and a 32-bit move already
clears the upper half. -/
def integerRule (source target : Primitive) : Rule :=
  if target.bytes ≤ source.bytes then ⟨.review, .mov⟩
  else if source.bytes == 4 && target.bytes == 8 && source.isSigned != target.isSigned then
    ⟨.stagedExtend, if source.isSigned then .movsxd else .mov⟩
  else if source.isSigned && source.bytes == 4 then ⟨.signExtend, .movsxd⟩
  else if source.isSigned then ⟨.signExtend, .movsx⟩
  else if source.bytes == 4 then ⟨.zeroExtend, .mov⟩
  else ⟨.zeroExtend, .movzx⟩

def betweenIntegers : Rules :=
  integers.flatMap fun source =>
    (integers.filter (· != source)).map fun target =>
      ⟨.prim source, .prim target, integerRule source target⟩

def integersAndFloats : Rules :=
  integers.flatMap fun integer =>
    [⟨.prim integer, .prim .f32, .integerToFloat, .cvtsi2ss⟩,
      ⟨.prim integer, .prim .f64, .integerToFloat, .cvtsi2sd⟩,
      ⟨.prim .f32, .prim integer, .floatToInteger, .cvttss2si⟩,
      ⟨.prim .f64, .prim integer, .floatToInteger, .cvttsd2si⟩]

def betweenFloats : Rules :=
  [⟨.prim .f32, .prim .f64, .floatToFloat, .cvtss2sd⟩,
    ⟨.prim .f64, .prim .f32, .floatToFloat, .cvtsd2ss⟩]

/-- A boolean is a byte that holds zero or one, and converts like one. -/
def fromBool : Rules :=
  ⟨.prim .bool, .prim .u8, .review, .mov⟩ ::
    (betweenIntegers.filter fun entry => entry.source == .prim .u8).map fun entry =>
      { entry with source := .prim .bool }

def pointers : Rules :=
  [⟨.ptr, .prim .i64, .review, .mov⟩, ⟨.ptr, .prim .u64, .review, .mov⟩,
    ⟨.prim .i64, .ptr, .review, .mov⟩, ⟨.prim .u64, .ptr, .review, .mov⟩]

def standard : Rules :=
  betweenIntegers ++ integersAndFloats ++ betweenFloats ++ fromBool ++ pointers

/-- The standard table with a key for the types that no register holds. -/
def standardByType : List (Entry (Option Scalar) Rule) := standard.map (Entry.mapKey some)

def typeKeyName (key : Option Scalar) : String := key.elim "" Scalar.name

def between (source target : Ty) : Except Unsupported Rule :=
  (lookup typeKeyName standardByType source.scalar? target.scalar?).map Entry.rule

end Nasm64.Conversion
