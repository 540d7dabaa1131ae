import Nasm64.Proofs.Value.FastPath

/-! Float expressions as terms over operations that are left open, and what the machine has to hold for
them. -/
namespace Nasm64

open Lower Register

/-- Arithmetic over variables and literals, with nothing evaluated. -/
inductive Term where
  | ident (name : String)
  | literal (value : Double)
  | zero
  | apply (op : Operator) (left right : Term)
deriving DecidableEq, Repr

namespace Term

structure Reading where
  ident : String → BitVec 64
  literal : Double → BitVec 64
  apply : Operator → BitVec 64 → BitVec 64 → BitVec 64

def value (reading : Reading) : Term → BitVec 64
  | ident name => reading.ident name
  | literal value => reading.literal value
  | zero => 0
  | apply op left right => reading.apply op (left.value reading) (right.value reading)

/-- The literals of a term, which are read from the data section. -/
def literals : Term → List Double
  | literal value => [value]
  | apply _ left right => left.literals ++ right.literals
  | ident _ | zero => []

end Term

namespace Expr

/-- Whether an expression is one with a minus in front. -/
def isNegated : Expr → Bool
  | unary _ .negate _ => true
  | _ => false

/-- Well-typed expressions of one precision, each with the term that mirrors it. A minus in front of
a literal is part of the literal and left out. -/
inductive Mirrors (scope : List (String × Variable)) (precision : Primitive) : Expr → Term → Prop
  | ident {position : Position} {name : String} {slot : Variable}
    (found : scope.lookup name = some slot) (typed : slot.type = .prim precision) :
    Mirrors scope precision (.ident position name (.prim precision)) (.ident name)
  | float {position : Position} {value : Double} :
    Mirrors scope precision (.float position value (.prim precision)) (.literal value)
  | negate {position : Position} {operand : Expr} {term : Term}
    (inner : Mirrors scope precision operand term)
    (computed : ∀ position value ty, operand ≠ .float position value ty) :
    Mirrors scope precision (.unary position .negate operand) (.apply .sub .zero term)
  | binary {position : Position} {op : Operator} {left right : Expr} {first second : Term}
    (arithmetic : op = .add ∨ op = .sub ∨ op = .mul ∨ op = .div)
    (lefts : Mirrors scope precision left first) (rights : Mirrors scope precision right second) :
    Mirrors scope precision (.binary position op left right (.prim precision))
      (.apply op first second)

variable {scope : List (String × Variable)} {precision : Primitive} {expr : Expr} {term : Term}

theorem Mirrors.type_eq (mirrors : expr.Mirrors scope precision term) :
    expr.type = .prim precision := by
  induction mirrors with
  | ident | float | binary => rfl
  | negate _ _ ih => exact ih

/-- Only literals are folded. -/
theorem Mirrors.constant?_eq_none (mirrors : expr.Mirrors scope precision term)
    (computed : ∀ pos v ty, expr ≠ .float pos v ty) : expr.constant? = none := by
  induction mirrors with
  | ident | binary => rfl
  | float => exact absurd rfl (computed _ _ _)
  | negate _ inner ih => rw [constant?, ih inner, Option.map_none]

/-- Whether an expression keeps its values when it is lowered with that many float registers free. A
negated leaf on the right side of an operator needs one, since negation and operators without a free
register use the same scratch register. -/
def survives (free : Nat) : Expr → Bool
  | unary _ _ operand => operand.survives free
  | binary _ _ left right _ =>
    left.survives free &&
      if right.isLeaf then !right.isNegated || free != 0
      else right.survives (if left.isLeaf then free - 1 else free)
  | _ => true

theorem survives_of_isLeaf (leaf : expr.isLeaf = true) (free : Nat) : expr.survives free = true := by
  fun_induction survives free expr with
  | case1 _ _ _ opnd ih => exact ih leaf
  | case2 => cases leaf
  | case3 => rfl

end Expr

namespace Register

variable {held : List Register} {r : Register}

/-- The number of float registers of the pool that are not held. -/
def idle (held : List Register) : Nat :=
  ((poolFamilies true).filter fun family => held.all fun register => register.family != family).length

theorem idle_of_used (used : ∃ other ∈ held, other.family = r.family) :
    idle (r :: held) = idle held := by
  refine congrArg List.length (List.filter_congr fun fam _ => ?_)
  obtain ⟨other, mem, same⟩ := used
  rw [Bool.eq_iff_iff, List.all_cons, Bool.and_eq_true, and_iff_right_iff_imp, ← same]
  exact fun apart => List.all_eq_true.mp apart other mem

theorem idle_of_fresh (pooled : r.family ∈ poolFamilies true)
    (unused : ∀ other ∈ held, other.family ≠ r.family) : idle held = idle (r :: held) + 1 := by
  have free : r.family ∈ (poolFamilies true).filter fun family =>
      held.all fun other => other.family != family :=
    List.mem_filter.mpr ⟨pooled, List.all_eq_true.mpr fun other member =>
      bne_iff_ne.mpr (unused other member)⟩
  have distinct : (poolFamilies true).Nodup := by decide
  have fewer : ((poolFamilies true).filter fun family =>
      (r :: held).all fun other => other.family != family) =
        ((poolFamilies true).filter fun family =>
          held.all fun other => other.family != family).erase r.family := by
    rw [List.Nodup.erase_eq_filter (List.Pairwise.filter _ distinct), List.filter_filter]
    refine List.filter_congr fun family _ => ?_
    rw [List.all_cons, Bool.eq_iff_iff]
    simp only [Bool.and_eq_true, bne_iff_ne, ne_comm]
  rw [idle, idle, fewer, List.length_erase_of_mem free]
  have := List.length_pos_of_mem free
  omega

end Register

namespace Lower.Frame

variable {frame : Frame} {size : Int} {r : Register}

theorem free_idle (found : frame.free true size = .ok r) :
    idle frame.held = idle (r :: frame.held) + 1 := by
  have fresh := free_fresh found
  refine idle_of_fresh fresh.pooled fun other mem same => ?_
  have unused := fresh.unused
  rw [← same, inUse_of_mem mem] at unused
  cases unused

theorem exhausted_idle (supported : inPool true size = true)
    (none : frame.free true size = .error error) : idle frame.held = 0 := by
  unfold free pool at none
  simp only [supported, if_true, bind, Except.bind] at none
  split at none
  · cases none
  · rename_i nothing
    refine List.length_eq_zero_iff.mpr (List.filter_eq_nil_iff.mpr fun fam pooled apart => ?_)
    refine List.find?_eq_none.mp nothing ⟨fam, size⟩ (List.mem_map.mpr ⟨fam, pooled, rfl⟩) ?_
    have unused : frame.inUse fam = false := by
      rw [Bool.eq_false_iff]
      intro used
      obtain ⟨other, mem, same⟩ := inUse_iff.mp used
      exact bne_iff_ne.mp (List.all_eq_true.mp apart other mem) same
    simp [unused]

end Lower.Frame

/-- The operations on single floats, which neither read nor depend on the upper half of a register. -/
def Mnemonic.isSingle : Mnemonic → Bool
  | addss | subss | mulss | divss => true
  | _ => false

def Mnemonic.isDouble : Mnemonic → Bool
  | addsd | subsd | mulsd | divsd => true
  | _ => false

/-- The low half of what an operation on single floats gives depends on the low halves of its
operands. -/
def World.IsNarrow (world : World) : Prop :=
  ∀ mnemonic : Mnemonic, mnemonic.isSingle = true → ∀ left right,
    Word.low 4 (world.float mnemonic left right) =
      Word.low 4 (world.float mnemonic (Word.low 4 left) (Word.low 4 right))

namespace Primitive

variable {precision : Primitive} {op : Operator}

/-- The instruction for an operator at some precision. -/
def instruction? (precision : Primitive) (op : Operator) : Option Mnemonic :=
  (Operation.float? (precision == .f64) op).map Operation.mnemonic

theorem arithmetic_operation (isFloat : precision.isFloat = true)
    (arithmetic : op = .add ∨ op = .sub ∨ op = .mul ∨ op = .div) :
    ∃ mn : Mnemonic, precision.instruction? op = some mn ∧
      Operation.ofTypes (.prim precision) op (.prim precision) =
        .ok ⟨op, .floatArith, mn, none, true, none⟩ ∧
      (precision.bytes = 4 ∧ mn.isSingle = true ∨ precision.bytes = 8 ∧ mn.isDouble = true) := by
  cases precision with
  | f32 => rcases arithmetic with rfl | rfl | rfl | rfl <;> exact ⟨_, rfl, rfl, .inl ⟨rfl, rfl⟩⟩
  | f64 => rcases arithmetic with rfl | rfl | rfl | rfl <;> exact ⟨_, rfl, rfl, .inr ⟨rfl, rfl⟩⟩
  | _ => cases isFloat

end Primitive

def World.operate (world : World) (precision : Primitive) (op : Operator) (left right : BitVec 64) :
    BitVec 64 :=
  match precision.instruction? op with
  | some mnemonic => Word.low precision.bytes (world.float mnemonic left right)
  | none => 0

namespace Machine

variable {w : World} {m : Machine} {mn : Mnemonic} {bytes : Nat}

/-- What the parts of a term mean in a state. -/
def reading (machine : Machine) (world : World) (scope : List (String × Variable))
    (precision : Primitive) (literal : Double → BitVec 64) : Term.Reading where
  ident := fun name => (machine.local? scope name).getD 0
  literal := literal
  apply := world.operate precision

/-- Operations on floats do not depend on bytes beyond their width. -/
theorem float_low (narrow : w.IsNarrow)
    (known : bytes = 4 ∧ mn.isSingle = true ∨ bytes = 8 ∧ mn.isDouble = true)
    (left right : BitVec 64) :
    Word.low bytes (w.float mn left right) =
      Word.low bytes (w.float mn (Word.low bytes left) (Word.low bytes right)) := by
  rcases known with ⟨rfl, single⟩ | ⟨rfl, _⟩
  · exact narrow mn single left right
  · simp only [Word.low_eight]

theorem floating_arithmetic (known : mn.isSingle = true ∨ mn.isDouble = true)
    (read : m.floatOperand w src = some word) :
    mn ≠ .xchg ∧ m.floating w mn dst src = some (w.float mn (m.reg dst.family) word, m.flags) := by
  rcases known with single | double
  · unfold Mnemonic.isSingle at single
    split at single <;> first | contradiction | exact ⟨by decide, by simp [floating, read]⟩
  · unfold Mnemonic.isDouble at double
    split at double <;> first | contradiction | exact ⟨by decide, by simp [floating, read]⟩

theorem step_arithmeticFloat (narrow : w.IsNarrow) (working : dst.Working true)
    (known : dst.size.toNat = 4 ∧ mn.isSingle = true ∨ dst.size.toNat = 8 ∧ mn.isDouble = true)
    (lefts : m.view dst = left) (rights : m.content true w dst.size src = some right) :
    ∃ next, step w m (.binary mn (.reg dst) src) = some next ∧
      Sets dst (Word.low dst.size.toNat (w.float mn left right)) m next := by
  obtain ⟨word, read, rfl⟩ := floatOperand_low rights
  obtain ⟨plain, computed⟩ := floating_arithmetic (known.imp And.right And.right) read
  obtain ⟨next, stepped, sets⟩ := step_floating w m working plain computed
  rw [float_low narrow known] at sets
  rw [← lefts]
  exact ⟨next, stepped, sets⟩

theorem address_atLabel (w : World) (m : Machine) (name : String) :
    m.address w (.atLabel name) = w.label name := by
  simp [address, start, Address.atLabel]

def literalAddress (world : World) (precision : Primitive) (value : Double) : BitVec 64 :=
  world.label (({} : DataSection).addFloat value precision.bytes).1

/-- Literals are in their places, outside of the free stack. -/
structure Stores (machine : Machine) (world : World) (precision : Primitive)
    (literal : Double → BitVec 64) (values : List Double) : Prop where
  holds : ∀ value ∈ values,
    machine.memory.load (literalAddress world precision value) precision.bytes = literal value
  apart : ∀ value ∈ values, ∀ byte,
    Memory.covers (literalAddress world precision value) precision.bytes byte →
      ¬ machine.isBelow (machine.reg .rsp) byte

variable {precision : Primitive} {lit : Double → BitVec 64} {values : List Double} {next : Machine}

theorem Within.stores (within : Within m next) (stores : m.Stores w precision lit values) :
    next.Stores w precision lit values where
  holds := by
    intro v mem
    rw [← stores.holds v mem]
    refine Memory.load_congr (fun byte covered =>
      within.memory byte (stores.apart v mem byte covered)) ?_
    cases precision <;> decide
  apart := fun v mem byte covered below =>
    stores.apart v mem byte covered (within.isBelow below)

end Machine

end Nasm64
