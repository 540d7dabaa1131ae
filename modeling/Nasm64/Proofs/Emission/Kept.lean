import Nasm64.Proofs.Emission.Quiet

/-! What lowering an expression leaves as it was in the frame, and the families that its code may
change. -/
namespace Nasm64.Lower

open Lower.Frame

namespace Frame

/-- Some registers are held in addition. The variables in scope, the depth of the stack and the
labels made are as before, and as many registers were saved as restored. -/
structure Grown (extra : List Register) (frame next : Frame) : Prop where
  held : next.held = extra ++ frame.held
  scope : next.scope = frame.scope
  depth : next.depth = frame.depth
  labels : next.labels = frame.labels
  balance : next.pushes + frame.pops = next.pops + frame.pushes

abbrev Kept (frame next : Frame) : Prop := Grown [] frame next

namespace Grown

variable {extra : List Register} {frame next : Frame} {r : Register}

theorem trans (first : Grown extra frame mid) (second : Grown more mid next) :
    Grown (more ++ extra) frame next where
  held := by rw [second.held, first.held, List.append_assoc]
  scope := second.scope.trans first.scope
  depth := second.depth.trans first.depth
  labels := second.labels.trans first.labels
  balance := by
    have := first.balance
    have := second.balance
    omega

theorem reheld (grown : Grown extra frame next) (same : stack = more ++ frame.held) :
    Grown more frame { next with held := stack } :=
  ⟨same, grown.scope, grown.depth, grown.labels, grown.balance⟩

theorem push (grown : Grown extra frame next) (r : Register) :
    Grown (r :: extra) frame (next.push r) := grown.reheld (by simp [grown.held])

theorem pop (grown : Grown (r :: extra) frame next) : Grown extra frame next.pop :=
  grown.reheld (by simp [grown.held])

theorem drop (grown : Grown extra frame next) :
    Kept frame { next with held := next.held.drop extra.length } :=
  grown.reheld (by simp [grown.held])

end Grown

namespace Kept

variable {frame mid next : Frame} {r : Register}

theorem refl (frame : Frame) : Kept frame frame := ⟨rfl, rfl, rfl, rfl, Nat.add_comm _ _⟩

theorem trans (first : Kept frame mid) (second : Kept mid next) : Kept frame next :=
  Grown.trans first second

theorem touch (kept : Kept frame next) (family : Family) : Kept frame (next.touch family) :=
  kept.trans ⟨by simp, by simp, by simp, by simp, by simp [Nat.add_comm]⟩

theorem pop (kept : Kept (frame.push r) next) : Kept frame next.pop :=
  (((refl frame).push r).trans kept).pop

theorem unhold (kept : Kept (frame.hold r) next) : Kept frame (frame.unhold r next) := by
  unfold hold at kept
  unfold Frame.unhold
  cases used : frame.inUse r.family with
  | true => simpa only [used, if_true] using kept
  | false =>
    simp only [used, Bool.false_eq_true, if_false] at kept ⊢
    exact kept.pop

theorem balanced (kept : Kept frame next) (count : Nat) : Kept frame (next.balanced count) :=
  kept.trans ⟨rfl, rfl, rfl, rfl, by simp [Frame.balanced]; omega⟩

theorem restored (kept : Kept (frame.saved count) next) : Kept frame (next.restored count) where
  held := kept.held
  scope := kept.scope
  depth := by simp [Frame.restored, kept.depth, Frame.saved]
  labels := kept.labels
  balance := by
    have balance := kept.balance
    simp only [Frame.saved] at balance
    simp only [Frame.restored]
    omega

theorem raised (kept : Kept (frame.deepened bytes) next) : Kept frame (next.raised bytes) where
  held := kept.held
  scope := kept.scope
  depth := by simp [Frame.raised, kept.depth, Frame.deepened]
  labels := kept.labels
  balance := kept.balance

theorem refer (kept : Kept frame next) (slot : Variable) : Kept frame (next.refer slot) := by
  refine kept.trans ?_
  unfold Frame.refer
  split
  · exact refl _
  · exact ⟨rfl, rfl, rfl, rfl, Nat.add_comm _ _⟩

end Kept

/-- Every register held is one that code computes with. -/
def Ordinary (frame : Frame) : Prop := ∀ register ∈ frame.held, register.family.isOrdinary = true

/-- A register that may receive a value: the innermost one held, or one that nothing relies on. -/
structure Receives (frame : Frame) (register : Register) : Prop where
  ordinary : register.family.isOrdinary = true
  innermost : (∃ top, frame.held.head? = some top ∧ top.family = register.family) ∨
    frame.inUse register.family = false

/-- The families that code with results in some registers may change: those, the scratch registers,
and whatever nothing relies on. -/
def mayChange (frame : Frame) (results : List Family) (family : Family) : Prop :=
  frame.inUse family = false ∨ family ∈ scratchFamilies ∨ family ∈ results

def Covers (inner frame : Frame) : Prop :=
  ∀ family, frame.inUse family = true → inner.inUse family = true

section

variable {inner frame mid next : Frame} {r : Register} {family : Family}

theorem Covers.refl (frame : Frame) : Covers frame frame := fun _ used => used

theorem Covers.trans (first : Covers inner mid) (second : Covers mid frame) :
    Covers inner frame := fun family used => first family (second family used)

theorem Covers.push (covers : Covers inner frame) (r : Register) : Covers (inner.push r) frame := by
  intro family used
  obtain ⟨held, mem, same⟩ := inUse_iff.mp (covers family used)
  exact inUse_iff.mpr ⟨held, by simp [mem], same⟩

theorem Covers.hold (covers : Covers inner frame) (r : Register) :
    Covers (inner.hold r) frame := fun family used => inUse_hold (covers family used)

theorem Grown.covers (grown : Grown extra frame next) : Covers next frame := by
  intro family used
  obtain ⟨held, mem, same⟩ := inUse_iff.mp used
  exact inUse_iff.mpr ⟨held, by simp [grown.held, mem], same⟩

theorem Covers.unused (covers : Covers inner frame) (unused : inner.inUse family = false) :
    frame.inUse family = false := by
  cases used : frame.inUse family with
  | false => rfl
  | true => rw [covers family used] at unused; cases unused

theorem mayChange_mono (covers : Covers inner frame)
    (includes : ∀ family ∈ results, frame.mayChange wider family)
    (changes : inner.mayChange results family) : frame.mayChange wider family := by
  rcases changes with unused | scratch | result
  · exact .inl (covers.unused unused)
  · exact .inr (.inl scratch)
  · exact includes family result

theorem mayChange_result (member : family ∈ results) : frame.mayChange results family := .inr (.inr member)

theorem Ordinary.push (ord : frame.Ordinary) (fits : r.family.isOrdinary = true) :
    (frame.push r).Ordinary := by
  intro held mem
  rcases List.mem_cons.mp mem with rfl | mem
  · exact fits
  · exact ord held mem

theorem Ordinary.hold (ord : frame.Ordinary) (fits : r.family.isOrdinary = true) :
    (frame.hold r).Ordinary := by
  unfold Frame.hold
  split
  · exact ord
  · exact ord.push fits

theorem Ordinary.kept (ord : frame.Ordinary) (kept : Kept frame next) : next.Ordinary := by
  intro held mem
  rw [kept.held] at mem
  exact ord held mem

theorem Receives.of_held (receives : frame.Receives r) (same : next.held = frame.held) :
    next.Receives r := by
  have innermost := receives.innermost
  rw [← same, ← inUse_congr same] at innermost
  exact ⟨receives.ordinary, innermost⟩

theorem Receives.of_kept (kept : Kept frame next) (receives : next.Receives r) :
    frame.Receives r := receives.of_held (Eq.symm kept.held)

theorem Receives.kept (receives : frame.Receives r) (kept : Kept frame next) : next.Receives r :=
  receives.of_held kept.held

theorem Receives.congr (receives : frame.Receives other) (same : r.family = other.family) :
    frame.Receives r := ⟨same ▸ receives.ordinary, same ▸ receives.innermost⟩

theorem pool_ordinary (pooled : family ∈ Register.poolFamilies isFloat) :
    family.isOrdinary = true := by
  cases isFloat with
  | false => revert family; decide
  | true => revert family; decide

theorem Fresh.ordinary {isFloat : Bool} {size : Int} (fresh : Fresh frame isFloat size r) :
    r.family.isOrdinary = true := pool_ordinary fresh.pooled

theorem Fresh.receives {isFloat : Bool} {size : Int} (fresh : Fresh frame isFloat size r) :
    frame.Receives r := ⟨fresh.ordinary, .inr fresh.unused⟩

theorem Receives.hold_innermost (receives : frame.Receives r) :
    ∃ top, (frame.hold r).held.head? = some top ∧ top.family = r.family := by
  unfold hold
  rcases receives.innermost with ⟨top, innermost, same⟩ | unused
  · have used : frame.inUse r.family = true :=
      inUse_iff.mpr ⟨top, List.mem_of_mem_head? (by simpa using innermost), same⟩
    exact ⟨top, by simpa [used] using innermost, same⟩
  · exact ⟨r, by simp [unused], rfl⟩

/-- What the innermost register receives under a register is that register or unused outside. -/
theorem Receives.under_push (receives : (frame.push r).Receives received) : received.family =
    r.family ∨ frame.inUse received.family = false := by
  rcases receives.innermost with ⟨top, innermost, same⟩ | unused
  · obtain rfl : r = top := by simpa using innermost
    exact .inl same.symm
  · exact .inr (((Covers.refl frame).push r).unused unused)

end

end Frame

variable {env : Env} {frame next : Frame}

theorem destination_receives (ordinary : frame.Ordinary)
    (run : Yields (destination pos ty) env frame r next) :
    frame.Kept next ∧ frame.Receives r ∧ r.isFloat = ty.isFloat ∧ r.size = ty.registerSize := by
  rcases yields_destination.mp run with ⟨top, innermost, same, rfl, rfl⟩ | ⟨_, found, rfl⟩
  · have member : top ∈ next.held := List.mem_of_mem_head? (by simpa using innermost)
    exact ⟨.refl _, ⟨ordinary top member, .inl ⟨top, innermost, rfl⟩⟩, same, rfl⟩
  · have fresh := free_fresh found
    exact ⟨(Kept.refl _).touch _, fresh.receives, fresh.isFloat, fresh.width⟩

/-- The innermost register receives the values of its class. -/
theorem destination_innermost (run : Yields (destination pos ty) env frame r next)
    (innermost : frame.held.head? = some top) (same : top.isFloat = ty.isFloat) :
    r.family = top.family := by
  rcases yields_destination.mp run with ⟨other, head, _, rfl, rfl⟩ | ⟨differs, _, _⟩
  · obtain rfl : top = other := Option.some.inj (innermost.symm.trans head)
    rfl
  · exact absurd same (differs top innermost)

end Nasm64.Lower
