/-! Checked types, their spelling and their classes. -/
namespace Nasm64

/-- The types with a name of their own, each held in one register. -/
inductive Primitive where
  | i8 | i16 | i32 | i64
  | u8 | u16 | u32 | u64
  | f32 | f64
  | bool
deriving DecidableEq, Repr, Inhabited

namespace Primitive

def all : List Primitive := [i8, i16, i32, i64, u8, u16, u32, u64, f32, f64, bool]

def name : Primitive → String
  | i8 => "i8"
  | i16 => "i16"
  | i32 => "i32"
  | i64 => "i64"
  | u8 => "u8"
  | u16 => "u16"
  | u32 => "u32"
  | u64 => "u64"
  | f32 => "f32"
  | f64 => "f64"
  | bool => "bool"

def bytes : Primitive → Nat
  | i8 | u8 | bool => 1
  | i16 | u16 => 2
  | i32 | u32 | f32 => 4
  | i64 | u64 | f64 => 8

def isSigned : Primitive → Bool
  | i8 | i16 | i32 | i64 => true
  | _ => false

def isInteger : Primitive → Bool
  | f32 | f64 | bool => false
  | _ => true

def isFloat : Primitive → Bool
  | f32 | f64 => true
  | _ => false

def ofName? (name : String) : Option Primitive := all.find? fun primitive => primitive.name == name

end Primitive

inductive Scalar where
  | prim (primitive : Primitive)
  | ptr
deriving DecidableEq, Repr, Inhabited

namespace Scalar

def name : Scalar → String
  | prim primitive => primitive.name
  | ptr => "ptr"

def bytes : Scalar → Nat
  | prim primitive => primitive.bytes
  | ptr => 8

def isSigned : Scalar → Bool
  | prim primitive => primitive.isSigned
  | ptr => false

def isFloat : Scalar → Bool
  | prim primitive => primitive.isFloat
  | ptr => false

end Scalar

/-- A struct names its fields in declaration order. Void holds no value. -/
inductive Ty where
  | prim (primitive : Primitive)
  | void
  | pointer (target : Ty)
  | array (length : Nat) (element : Ty)
  | struct (name : String) (fields : List (String × Ty))
deriving Repr, Inhabited

namespace Ty

/-- Array types read from the outside in, and a struct by its name alone. -/
def text : Ty → String
  | prim primitive => primitive.name
  | void => "void"
  | pointer target => "*" ++ target.text
  | array length element => "[" ++ toString length ++ "]" ++ element.text
  | struct name _ => name

def same (left right : Ty) : Bool := left.text == right.text

/-- The name of a primitive, a struct or void, and nothing for a derived type. -/
def name : Ty → String
  | prim primitive => primitive.name
  | void => "void"
  | struct name _ => name
  | pointer _ | array _ _ => ""

def isInteger : Ty → Bool
  | prim primitive => primitive.isInteger
  | _ => false

def isSigned : Ty → Bool
  | prim primitive => primitive.isSigned
  | _ => false

def isFloat : Ty → Bool
  | prim primitive => primitive.isFloat
  | _ => false

def isBool : Ty → Bool
  | prim .bool => true
  | _ => false

def isPointer : Ty → Bool
  | pointer _ => true
  | _ => false

def isArray : Ty → Bool
  | array _ _ => true
  | _ => false

def isStruct : Ty → Bool
  | struct _ _ => true
  | _ => false

def isVoid : Ty → Bool
  | void => true
  | _ => false

def isScalar : Ty → Bool
  | prim _ | pointer _ => true
  | _ => false

/-- The class a value is converted and computed in. Arrays count as the address of their start. -/
def scalar? : Ty → Option Scalar
  | prim primitive => some (.prim primitive)
  | pointer _ | array _ _ => some .ptr
  | void | struct _ _ => none

def target : Ty → Ty
  | pointer target => target
  | array _ element => element
  | _ => void

def decay : Ty → Ty
  | array _ element => pointer element
  | other => other

end Ty
end Nasm64
