import Nasm64.Call.Signature
import Nasm64.Proofs.Lower.Attempt
import Nasm64.Register.Pool

/-! The types that arguments travel as, and the registers that they travel in. -/
namespace Nasm64

namespace Ty

theorem decay_decay (ty : Ty) : ty.decay.decay = ty.decay := by cases ty <;> rfl

theorem isFloat_decay (ty : Ty) : ty.decay.isFloat = ty.isFloat := by cases ty <;> rfl

theorem registerSize_decay (ty : Ty) : ty.decay.registerSize = ty.registerSize := by cases ty <;> rfl

/-- An argument of the first type travels as one of the second: in a register of the same class, and
no value but a float changes its width. -/
structure Travels (source ty : Ty) : Prop where
  decayed : ty.decay = ty
  isFloat : ty.isFloat = source.isFloat
  width : ty.isFloat = false → ty.registerSize = source.registerSize

end Ty

namespace Signature

variable {sig : Signature} {types : List Ty}

theorem argumentTypes_getElem? {pos : Nat} :
    (sig.argumentTypes types)[pos]? = types[pos]?.map fun src =>
      if sig.isVariadic && sig.parameters.length ≤
      pos && src.decay.isFloat then .prim .f64 else src.decay := by
  simp only [argumentTypes, List.getElem?_map, List.getElem?_zipIdx, Nat.zero_add, Option.map_map]
  rfl

theorem argumentTypes_travel {pos : Nat} {src ty : Ty} (given : types[pos]? = some src)
    (found : (sig.argumentTypes types)[pos]? = some ty) : src.Travels ty := by
  rw [argumentTypes_getElem?, given, Option.map_some, Option.some.injEq] at found
  split at found
  · rename_i promoted
    subst found
    have float : src.isFloat = true := by
      rw [← src.isFloat_decay]
      exact (Bool.and_eq_true _ _ |>.mp promoted).2
    exact ⟨rfl, float.symm, by simp [Ty.isFloat, Primitive.isFloat]⟩
  · subst found
    exact ⟨src.decay_decay, src.isFloat_decay, fun _ => src.registerSize_decay⟩

end Signature

namespace Call

variable {lane : Lane} {isExternal : Bool} {types : List Ty} {ty : Ty} {slots : List Slot} {slot : Slot}
  {r : Register} {pair : Option Register}

def isPassing (register : Register) : Bool := register.valid && register.family.isVolatile

/-- A float travels in the float register of its lane, and any other value in the general one. -/
theorem lanePlace_isPassing (listed : lane ∈ Lane.all)
    (found : lanePlace lane isExternal ty = .ok (.register r pair)) :
    isPassing r = true ∧ pair.all isPassing = true := by
  have lanes : ∀ lane ∈ Lane.all, isPassing ⟨lane.general, 8⟩ = true ∧
      isPassing ⟨lane.float, 4⟩ = true ∧ isPassing ⟨lane.float, 8⟩ = true ∧
      lane.general.isFloat = false ∧ Lane.find? lane.general = some ((Lane.all.idxOf lane), lane) := by
    decide
  obtain ⟨whole, single, double, general, bound⟩ := lanes lane listed
  unfold lanePlace Register.view at found
  split at found
  · next viewed =>
    simp only [bind, Except.bind] at found
    split at found
    · simp only [Register.toFloat, Register.isFloat, general, Bool.false_eq_true, if_false, bound,
        pure, Except.pure, Except.ok.injEq, Place.register.injEq] at found
      obtain ⟨rfl, rfl⟩ := found
      constructor
      · split
        · exact single
        · exact double
      · split
        · exact whole
        · rfl
    · simp only [pure, Except.pure, Except.ok.injEq, Place.register.injEq] at found
      obtain ⟨rfl, rfl⟩ := found
      have volatile := (Bool.and_eq_true _ _ |>.mp whole).2
      exact ⟨Bool.and_eq_true _ _ |>.mpr ⟨viewed, volatile⟩, rfl⟩
  · cases found

section

variable (resolved : resolve types isExternal = .ok slots)

include resolved

/-- Every argument has a slot, on the stack or in a lane. -/
theorem resolve_eq_ok : List.Forall₂ (fun entry slot => slot.index = entry.2 ∧ (slot.place = .stack ∨
      ∃ lane ∈ Lane.all, lanePlace lane isExternal entry.1.decay = .ok slot.place)) types.zipIdx slots := by
  refine (Attempt.mapM_eq_ok resolved).imp fun entry slot placed => ?_
  dsimp only at placed
  split at placed
  · cases placed
    exact ⟨rfl, .inl rfl⟩
  · next lane looked =>
    split at placed
    · next place chosen =>
      cases placed
      exact ⟨rfl, .inr ⟨lane, List.mem_of_getElem? looked, chosen⟩⟩
    · cases placed

theorem resolve_indices : slots.map Slot.index = List.range types.length := by
  have same : List.Forall₂ (fun entry slot => Prod.snd entry = Slot.index slot) types.zipIdx slots :=
    (resolve_eq_ok resolved).imp fun _ _ placed => placed.1.symm
  have listed : types.zipIdx.map Prod.snd = slots.map Slot.index := by
    rw [← List.forall₂_eq_eq_eq, List.forall₂_map_left_iff, List.forall₂_map_right_iff]
    exact same
  rw [← listed, List.zipIdx_map_snd, List.range_eq_range']

theorem resolve_isPassing (mem : slot ∈ slots) (placed : slot.place = .register r pair) :
    isPassing r = true ∧ pair.all isPassing = true := by
  obtain ⟨_, _, _, stack | ⟨lane, listed, found⟩⟩ :=
    Attempt.exists_partner (resolve_eq_ok resolved).flip mem
  · rw [stack] at placed
    cases placed
  · exact lanePlace_isPassing listed (placed ▸ found)

end

end Call
end Nasm64
