import Nasm64.Proofs.Lower.Yields

/-! What the small changes of a frame leave alone, and which registers it hands out. -/
namespace Nasm64

namespace Register

theorem mem_poolFamilies_isFloat {isFloat : Bool} {fam : Family}
    (mem : fam ∈ poolFamilies isFloat) : fam.isFloat = isFloat := by
  cases isFloat with
  | false => revert fam; decide
  | true => revert fam; decide

@[simp] theorem resize_family (r : Register) (size : Int) : (r.resize size).family = r.family := rfl

@[simp] theorem resize_size (r : Register) (size : Int) : (r.resize size).size = size := rfl

@[simp] theorem resize_isFloat (r : Register) (size : Int) :
    (r.resize size).isFloat = r.isFloat := rfl

@[simp] theorem scratch_family : scratch.family = .r11 := rfl

@[simp] theorem floatScratch_family : floatScratch.family = .xmm 7 := rfl

end Register

namespace Lower.Frame

variable {frame : Frame} {fam : Family} {r : Register}

@[simp] theorem push_held : (frame.push r).held = r :: frame.held := rfl

@[simp] theorem push_scope : (frame.push r).scope = frame.scope := rfl

@[simp] theorem push_depth : (frame.push r).depth = frame.depth := rfl

@[simp] theorem push_pushes : (frame.push r).pushes = frame.pushes := rfl

@[simp] theorem push_pops : (frame.push r).pops = frame.pops := rfl

@[simp] theorem pop_push : (frame.push r).pop = frame := rfl

@[simp] theorem pop_held : frame.pop.held = frame.held.tail := rfl

@[simp] theorem pop_scope : frame.pop.scope = frame.scope := rfl

@[simp] theorem pop_depth : frame.pop.depth = frame.depth := rfl

@[simp] theorem pop_pushes : frame.pop.pushes = frame.pushes := rfl

@[simp] theorem pop_pops : frame.pop.pops = frame.pops := rfl

@[simp] theorem touch_held : (frame.touch fam).held = frame.held := by
  unfold touch
  split <;> rfl

@[simp] theorem touch_scope : (frame.touch fam).scope = frame.scope := by
  unfold touch
  split <;> rfl

@[simp] theorem touch_depth : (frame.touch fam).depth = frame.depth := by
  unfold touch
  split <;> rfl

@[simp] theorem touch_labels : (frame.touch fam).labels = frame.labels := by
  unfold touch
  split <;> rfl

@[simp] theorem touch_pushes : (frame.touch fam).pushes = frame.pushes := by
  unfold touch
  split <;> rfl

@[simp] theorem touch_pops : (frame.touch fam).pops = frame.pops := by
  unfold touch
  split <;> rfl

theorem inUse_iff : frame.inUse fam = true ↔ ∃ held ∈ frame.held, held.family = fam := by
  simp [inUse]

theorem inUse_congr {other : Frame} (same : other.held = frame.held) :
    other.inUse = frame.inUse := by
  funext fam
  simp only [inUse, same]

/-- A register is handed out at the width asked for, from the pool of its class, and nothing that
is pending relies on its family. -/
structure Fresh (frame : Frame) (isFloat : Bool) (size : Int) (register : Register) : Prop where
  width : register.size = size
  supported : Register.inPool isFloat size = true
  pooled : register.family ∈ Register.poolFamilies isFloat
  unused : frame.inUse register.family = false

theorem Fresh.isFloat {isFloat : Bool} {size : Int} (fresh : Fresh frame isFloat size r) :
    r.isFloat = isFloat := Register.mem_poolFamilies_isFloat fresh.pooled

theorem free_fresh (found : frame.free isFloat size excluded = .ok r) :
    Fresh frame isFloat size r := by
  unfold free Register.pool at found
  by_cases supported : Register.inPool isFloat size = true
  · simp only [supported, if_true, bind, Except.bind] at found
    split at found
    · rename_i candidate search
      cases found
      have accepted := List.find?_some search
      have mem := List.mem_of_find?_eq_some search
      simp only [Bool.and_eq_true, Bool.not_eq_true'] at accepted
      obtain ⟨fam, pooled, rfl⟩ := List.mem_map.mp mem
      exact ⟨rfl, supported, pooled, accepted.1⟩
    · contradiction
  · simp only [supported, Bool.false_eq_true, if_false, bind, Except.bind] at found
    contradiction

/-- Where a value is held while a computation runs. A family that is held already is not held
twice. -/
def hold (frame : Frame) (register : Register) : Frame :=
  if frame.inUse register.family then frame else frame.push register

def unhold (frame : Frame) (register : Register) (after : Frame) : Frame :=
  if frame.inUse register.family then after else after.pop

@[simp] theorem hold_scope : (frame.hold r).scope = frame.scope := by
  unfold hold
  split <;> rfl

@[simp] theorem hold_depth : (frame.hold r).depth = frame.depth := by
  unfold hold
  split <;> rfl

theorem hold_inUse : (frame.hold r).inUse r.family = true := by
  unfold hold
  split
  · assumption
  · simp [inUse]

theorem inUse_hold (used : frame.inUse fam = true) : (frame.hold r).inUse fam = true := by
  unfold hold
  split
  · assumption
  · simp_all [inUse]

end Lower.Frame
end Nasm64
