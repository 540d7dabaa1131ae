import Nasm64.Lower.Expr
import Nasm64.Proofs.Machine.Preserve

/-! Where places are, apart from the code for them: a variable in the frame, what a pointer points to,
and members and elements counted from there. -/
namespace Nasm64

open Lower

/-- Nothing changed but the flags and registers to compute with. -/
def Machine.Settles (before after : Machine) : Prop :=
  Agrees (fun family => family.isOrdinary = true) (fun _ => False) before after

/-- What a computation can come to: a word and the machine that it leaves behind, and nothing when it
faults. -/
def Outcomes := Machine → Option (BitVec 64 × Machine) → Prop

namespace Outcomes

def word (value : Machine → BitVec 64) : Outcomes := fun machine outcome =>
  ∃ after, machine.Settles after ∧ outcome = some (value machine, after)

/-- A computation that goes on with the word another came to. -/
def bind (first : Outcomes) (rest : BitVec 64 → Outcomes) : Outcomes := fun machine outcome =>
  first machine none ∧ outcome = none ∨
    ∃ word middle, first machine (some (word, middle)) ∧ rest word middle outcome

end Outcomes

/-- Every register held is one of those handed out for values. -/
def Lower.Frame.Pooled (frame : Frame) : Prop :=
  ∀ register ∈ frame.held, ∃ isFloat, register.family ∈ Register.poolFamilies isFloat

namespace Expr

section

variable (w : World) (env : Env) (scope : List (String × Variable))

/-- What the code of an expression leaves in a register, wherever it is lowered among these
variables. -/
def evaluated (expr : Expr) : Outcomes := fun m outcome =>
  ∃ (frame : Frame) (r : Register) (code : Code) (next : Frame), frame.scope = scope ∧
    frame.Pooled ∧ r.family ∈ Register.poolFamilies false ∧
    Yields (expr.lowering.into (r.resize expr.type.registerSize)) env frame code next ∧
    outcome = (m.run w code).map fun after => (after.reg r.family, after)

/-- An index, before it is extended from the width of its type. -/
def counted (subscript : Expr) : Outcomes :=
  match subscript.integerLiteral? with
  | some value => .word fun _ => value.toBitVec
  | none => subscript.evaluated w env scope

/-- The address that a pointer holds. A pointer that is in memory is read there. -/
def pointed (pointer : Expr) (reaches : Outcomes) : Outcomes :=
  if pointer.isPlace then
    reaches.bind fun place => .word fun m => m.memory.load place 8
  else (pointer.evaluated w env scope).bind fun address => .word fun _ => address

/-- Where members and elements are counted from. -/
def started (base : Expr) (reaches : Outcomes) : Outcomes :=
  if base.type.isPointer then base.pointed w env scope reaches else reaches

def reaches : Expr → Outcomes
  | ident _ name _ => fun m outcome => ∃ slot, scope.lookup name = some slot ∧
      Outcomes.word (fun m => m.reg .rbp - slot.offset.toBitVec) m outcome
  | deref _ pointer => pointer.pointed w env scope pointer.reaches
  | index _ base subscript =>
    (base.started w env scope base.reaches).bind fun start =>
      (subscript.counted w env scope).bind fun count => .word fun _ =>
        start + Word.extend subscript.type.isSigned subscript.type.registerSize.toNat count *
          base.type.target.size.toBitVec
  | member _ base field =>
    (base.started w env scope base.reaches).bind fun start =>
      match (record base.type).field? field with
      | some found => .word fun _ => start + found.offset.toBitVec
      | none => fun _ _ => False
  | _ => fun _ _ => False

def loaded (expr : Expr) : Outcomes :=
  (expr.reaches w env scope).bind fun place => .word fun m =>
    m.memory.load place expr.type.size.toInt.toNat

end

section

variable {w : World} {env : Env} {scope : List (String × Variable)} {pos : Position}
  {name : String} {slot : Variable}

section

variable (found : scope.lookup name = some slot)

include found

theorem reaches_variable :
    (ident pos name ty).reaches w env scope = .word fun m => m.reg .rbp - slot.offset.toBitVec := by
  funext m outcome
  apply propext
  constructor
  · rintro ⟨other, again, place⟩
    cases found.symm.trans again
    exact place
  · intro place
    exact ⟨slot, found, place⟩

theorem started_array :
    (ident pos name (.array length element)).started w env scope
      ((ident pos name (.array length element)).reaches w env scope) = .word fun m =>
      m.reg .rbp - slot.offset.toBitVec := by
  show (ident pos name (.array length element)).reaches w env scope = _
  rw [reaches_variable found]

theorem started_pointer :
    (ident pos name (.pointer content)).started w env scope
      ((ident pos name (.pointer content)).reaches w env scope) = .word fun m =>
      m.memory.load (m.reg .rbp - slot.offset.toBitVec) 8 :=
    by
  funext m outcome
  apply propext
  show ((ident pos name (.pointer content)).reaches w env scope |>.bind fun place =>
    .word fun m => m.memory.load place 8) m outcome ↔ _
  rw [reaches_variable found]
  constructor
  · rintro (⟨⟨_, _, ⟨⟩⟩, _⟩ | ⟨_, mid, ⟨_, settles, ⟨⟩⟩, after, settled, rfl⟩)
    have same : mid.memory = m.memory := funext fun byte => settles.memory byte id
    refine ⟨after, settles.trans settled, ?_⟩
    simp only [same]
  · rintro ⟨after, settles, rfl⟩
    exact .inr ⟨_, m, ⟨m, .refl m, rfl⟩, after, settles, rfl⟩

end

end

/-- A literal index is a number of its type, and the size of elements that are counted at run time is
one that an instruction can multiply by. -/
def Countable (subscript : Expr) (elementSize : Int64) : Prop :=
  match subscript.integerLiteral? with
  | some value => Word.fold value subscript.type.registerSize subscript.type.isSigned = value
  | none => (Operand.imm elementSize).encodable 8 = true

/-- Variables have the type that they are declared with, and elements can be counted. -/
def Placeable (scope : List (String × Variable)) : Expr → Prop
  | ident _ name ty => ∀ slot, scope.lookup name = some slot → slot.type = ty
  | deref _ pointer => pointer.Placeable scope
  | member _ base _ => base.Placeable scope
  | index _ base subscript => base.Placeable scope ∧ subscript.Countable base.type.target.size
  | _ => True

end Expr
end Nasm64
