import Nasm64.Proofs.Machine.Forward

/-! What instructions on float registers leave behind. Arithmetic is left open. -/
namespace Nasm64

open Lower Word

theorem Word.low_merge (old v : BitVec 64) : low 4 ((old >>> 32) <<< 32 ||| low 4 v) = low 4 v := by
  refine BitVec.eq_of_getLsbD_eq fun bit inside => ?_
  simp only [getLsbD_low, BitVec.getLsbD_or, BitVec.getLsbD_shiftLeft]
  by_cases low : bit < 32
  · simp [low]
  · simp [show ¬ bit < 8 * 4 by omega]

namespace Machine

variable {w : World} {m : Machine} {dst : Register} {src : Operand}
  {v : BitVec 64}

structure Sets (target : Register) (value : BitVec 64) (before after : Machine) : Prop where
  view : after.view target = value
  others : ∀ family, family ≠ target.family → after.reg family = before.reg family

theorem Wrote.sets (wrote : Wrote dst v m next) :
    Sets dst (low dst.size.toNat v) m next := ⟨wrote.view, wrote.others⟩

theorem floatOperand_low (found : m.content true w size src = some v) : ∃ word,
    m.floatOperand w src = some word ∧ low size.toNat word = v := by
  cases src with
  | reg r =>
    simp only [content] at found
    split at found
    · rename_i fits
      simp only [Bool.and_eq_true, beq_iff_eq] at fits
      cases found
      exact ⟨m.reg r.family, by simp [floatOperand, fits.1], by rw [← fits.2]; rfl⟩
    · cases found
  | mem width addr =>
    simp only [content] at found
    split at found
    · rename_i same
      cases found
      rw [← beq_iff_eq.mp same]
      exact ⟨_, rfl, Memory.low_load (Nat.le_refl _)⟩
    · cases found
  | imm | place | symbol => cases found

section

variable (w) (m)

theorem step_floating (working : dst.Working true) (plain : mn ≠ .xchg)
    (computed : m.floating w mn dst src = some (word, m.flags)) :
    ∃ next, step w m (.binary mn (.reg dst) src) = some next ∧
      Sets dst (low dst.size.toNat word) m next := by
  have general : dst.isGeneral = false := by simp [Register.isGeneral, working.isFloat]
  refine ⟨m.update dst.family (word, m.flags), ?_, ?_, fun _ apart => if_neg apart⟩
  · simp [step, binary, working.aside, plain, Machine.computed, general, working.isFloat, computed]
  · simp only [view, update, set, if_true]

theorem step_floatMove (working : dst.Working true)
    (found : m.content true w dst.size src = some v) :
    ∃ next, step w m (.binary (Conversion.floatMove dst.size) (.reg dst) src) = some next ∧
      Sets dst v m next := by
  obtain ⟨word, read, rfl⟩ := floatOperand_low found
  have width : dst.size = 4 ∨ dst.size = 8 := by
    simpa [Register.inPool] using working.supported
  rcases width with same | same
  · rw [same]
    simp only [Conversion.floatMove, beq_self_eq_true, if_true]
    have low : Word.low dst.size.toNat (Word.low 4 word) = Word.low (4 : Int).toNat word := by
      rw [same]
      exact low_low (Nat.le_refl _)
    have merged : Word.low dst.size.toNat
        ((m.reg dst.family >>> 32) <<< 32 ||| Word.low 4 word) =
          Word.low (4 : Int).toNat word := by
      rw [same]
      exact low_merge _ _
    cases src with
    | reg other =>
      exact merged ▸ step_floating w m working (by decide) (by simp [floating, read])
    | mem size addr =>
      exact low ▸ step_floating w m working (by decide) (by simp [floating, read])
    | imm | place | symbol => cases read
  · rw [same]
    simp only [Conversion.floatMove, show ((8 : Int) == 4) = false from rfl, Bool.false_eq_true,
      if_false]
    exact same ▸ step_floating w m working (by decide) (by simp [floating, read])

theorem move_runs (working : dst.Working float) (found : m.content float w dst.size src = some v) :
    ∃ next, run w (move dst src) m = some next ∧ Sets dst v m next := by
  have class_ := working.isFloat
  cases float with
  | false =>
    obtain ⟨next, stepped, wrote⟩ := step_mov w m working found
    refine ⟨next, ?_, read_low found ▸ wrote.sets⟩
    simpa only [move, class_, Bool.false_eq_true, if_false] using run_singleton stepped
  | true =>
    obtain ⟨next, stepped, sets⟩ := step_floatMove w m working found
    refine ⟨next, ?_, sets⟩
    simpa only [move, class_, if_true] using run_singleton stepped

theorem zero_runs (working : dst.Working float) :
    ∃ next, run w (zero dst) m = some next ∧ ∀ fam, fam ≠ dst.family →
      next.reg fam = m.reg fam := by
  have class_ := working.isFloat
  cases float with
  | false =>
    have half : (dst.resize 4).Working false := ⟨working.family, rfl⟩
    obtain ⟨next, stepped, wrote⟩ := step_clear w m half
    refine ⟨next, ?_, wrote.others⟩
    simpa only [zero, class_, Bool.false_eq_true, if_false] using run_singleton stepped
  | true =>
    have cleared : m.floating w .xorps dst (.reg dst) = some (0, m.flags) := by
      simp [floating, floatOperand, class_]
    obtain ⟨next, stepped, sets⟩ := step_floating w m working (by decide) cleared
    refine ⟨next, ?_, sets.others⟩
    simpa only [zero, class_, if_true] using run_singleton stepped

end

end Machine
end Nasm64
