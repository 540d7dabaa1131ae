import Nasm64.Proofs.Emission.Expr
import Nasm64.Proofs.Machine.Block
import Nasm64.Proofs.Machine.Held

/-! Structs copied and cleared. Main statement: exactly the bytes of the target change, and the only
register that changes is the one that a copy goes through, of which no address makes use. -/
namespace Nasm64

open Lower

theorem Lower.Frame.Fresh.family_ne_scratch (fresh : Frame.Fresh frame false 8 r) :
    .r11 ≠ r.family := by
  intro same
  have pooled := same ▸ fresh.pooled
  exact absurd pooled (by decide)

theorem Lower.placePointer_aside (run : Yields (placePointer ptr none) env frame (code, located) next) :
    .r11 ∉ located.address.families := by
  rcases yields_placePointer run with ⟨r, _, found, _, same⟩ | ⟨r, _, _, found, _, same⟩
  · cases found
  · cases same
    simpa [Address.families, Base.families] using (Frame.free_fresh found).family_ne_scratch

theorem Lower.addIndex_aside (aside : .r11 ∉ start.address.families)
    (run : Yields (addIndex start subscript elementSize) env frame (code, located) next) :
    .r11 ∉ located.address.families := by
  obtain ⟨r, found, _, _, _, ⟨_, _, same⟩ | ⟨_, _, _, same⟩⟩ := yields_addIndex run
  · cases same
    simp only [Address.families, List.mem_append, not_or] at aside
    simpa [Address.families, aside.1] using (Frame.free_fresh found).family_ne_scratch
  · cases same
    exact aside

/-- An address is computed from the frame pointer and registers of the pool, none of them the scratch
register. -/
theorem Expr.place_aside (expr : Expr)
    (run : Yields (expr.lowering.place none) env frame (code, located) next) :
    .r11 ∉ located.address.families := by
  have based {base : Expr} {frame next : Frame} {code : Code} {located : Located}
      (smaller : sizeOf base < sizeOf expr)
      (run : Yields (placeBase base.lowering none) env frame (code, located) next) :
      .r11 ∉ located.address.families := by
    unfold placeBase at run
    split at run
    · exact placePointer_aside run
    · exact base.place_aside run
  cases expr with
  | ident =>
    obtain ⟨_, _, _, same⟩ := yields_placeVariable.mp run
    cases same
    exact fun listed => absurd (List.mem_singleton.mp listed) (by decide)
  | deref => exact placePointer_aside (yields_placeDeref.mp run).2
  | index _ base =>
    obtain ⟨_, _, _, start, _, placed, outcome⟩ := yields_placeElement run
    have aside := based (show sizeOf base < _ by simp; omega) placed
    rcases outcome with ⟨_, _, _, same⟩ | ⟨_, _, _, indexed, same⟩
    · cases same
      exact aside
    · cases same
      exact addIndex_aside aside indexed
  | member _ base =>
    obtain ⟨_, _, placed, _, _, same⟩ := yields_placeMember run
    have aside := based (show sizeOf base < _ by simp; omega) placed
    cases same
    exact aside
  | unary _ op => cases op <;> exact absurd run yields_fail
  | binary =>
    rw [lowering_binary] at run
    exact absurd run yields_fail
  | _ => exact absurd run yields_fail
termination_by sizeOf expr

namespace Machine

/-- Two blocks of a machine's memory that do not wrap, and that are apart or the same. -/
structure Parallel (target source : BitVec 64) (bytes : Nat) : Prop where
  targetFits : target.toNat + bytes ≤ 2 ^ 64
  sourceFits : source.toNat + bytes ≤ 2 ^ 64
  apart : target = source ∨ target.toNat + bytes ≤ source.toNat ∨ source.toNat + bytes ≤ target.toNat

theorem Parallel.same_place {target source : BitVec 64} (parallel : Parallel target source bytes)
    (first : here < bytes) (second : there < bytes)
    (meets : source + BitVec.ofNat 64 here = target + BitVec.ofNat 64 there) : here = there := by
  have numbers := congrArg BitVec.toNat meets
  have := parallel.targetFits
  have := parallel.sourceFits
  have := target.isLt
  have := source.isLt
  rw [BitVec.toNat_add, BitVec.toNat_add, BitVec.toNat_ofNat, BitVec.toNat_ofNat] at numbers
  rcases parallel.apart with rfl | below | above <;> omega

/-- The code that copies a block makes its bytes those that the source had, and the code that clears one makes
them zero. Neither touches another byte of memory, and the register that a copy goes through is the
only one that changes. An address that a struct is copied from or to never depends on it. A negative
size stands for no bytes. -/
theorem blocks_copied_and_cleared (world : World) (machine : Machine) (size : Int64) :
    (∀ target source, .r11 ∉ target.families → .r11 ∉ source.families →
      Parallel (machine.address world target) (machine.address world source) size.toInt.toNat →
      ∃ scratch memory,
        machine.perform world (copyBytes target source size) =
          some { machine.set .r11 scratch with memory := memory } ∧
        (∀ place < size.toInt.toNat, memory (machine.address world target + .ofNat 64 place) =
          machine.memory (machine.address world source + .ofNat 64 place)) ∧
        ∀ byte, ¬ Memory.covers (machine.address world target) size.toInt.toNat byte →
          memory byte = machine.memory byte) ∧
    (∀ target, (machine.address world target).toNat + size.toInt.toNat ≤ 2 ^ 64 →
      ∃ memory, machine.perform world (zeroBytes target size) = some { machine with memory := memory } ∧
        (∀ place < size.toInt.toNat, memory (machine.address world target + .ofNat 64 place) = 0) ∧
        ∀ byte, ¬ Memory.covers (machine.address world target) size.toInt.toNat byte →
          memory byte = machine.memory byte) ∧
    ∀ (expr : Expr) env frame code located next,
      Yields (expr.lowering.place none) env frame (code, located) next →
        .r11 ∉ located.address.families := by
  have small := size.toInt_lt
  have inside (base : BitVec 64) {place : Nat} (below : place < size.toInt.toNat) :
      (base + BitVec.ofNat 64 place - base).toNat = place := by
    rw [BitVec.add_comm, BitVec.add_sub_cancel, BitVec.toNat_ofNat]
    omega
  refine ⟨fun target source left right parallel => ?_, fun target _ => ?_,
    fun expr _ _ _ _ _ run => expr.place_aside run⟩
  · obtain ⟨scratch, copied⟩ := machine.perform_copyBytes world target source size
      (by simp [left, right]) fun _ _ first second meets => parallel.same_place first second meets
    refine ⟨scratch, _, copied, fun place below => ?_, fun byte apart => ?_⟩
    · rw [Memory.fill, inside _ below, if_pos ⟨Nat.zero_le _, below⟩]
    · exact Memory.fill_apart fun within => apart within.2
  · refine ⟨_, machine.perform_zeroBytes world target size, fun place below => ?_, fun byte apart => ?_⟩
    · rw [Memory.fill, inside _ below, if_pos ⟨Nat.zero_le _, below⟩]
    · exact Memory.fill_apart fun within => apart within.2

/-- Eleven bytes of the frame, in units of eight, two and one. -/
theorem block_copied_within_frame :
    ∃ scratch memory, (sample 7).perform .clearing (copyBytes (.frameSlot 16) (.frameSlot 32) 11) =
        some { (sample 7).set .r11 scratch with memory := memory } ∧
      (∀ place < 11, memory (8176 + .ofNat 64 place) = 0) ∧
      ∀ byte, ¬ Memory.covers 8176 11 byte → memory byte = 0 := by
  have parallel : Parallel ((sample 7).address .clearing (.frameSlot 16))
      ((sample 7).address .clearing (.frameSlot 32)) 11 := ⟨by decide, by decide, by decide⟩
  exact (blocks_copied_and_cleared .clearing (sample 7) 11).1 (.frameSlot 16) (.frameSlot 32)
    (by decide) (by decide) parallel

end Machine
end Nasm64
