import Nasm64.Proofs.Value.Instruction

/-! Products and quotients in the accumulator, at 32 bits at least. -/
namespace Nasm64

open Lower Word Register

namespace Word

/-- Division at the double width has a result where the operator has one. -/
theorem divide?_eq_word? {signed : Bool} {op : Operator} {width : Nat}
    {high dividend : BitVec width} (divisor : BitVec width)
    (filled : high = if signed then if dividend.msb then BitVec.allOnes width else 0 else 0)
    (divides : op = .div ∨ op = .rem) :
    (divide? signed high dividend divisor).map (fun halves => if op =
      .div then halves.1 else halves.2) = op.word? signed dividend divisor := by
  by_cases zero : divisor = 0
  · rw [zero, divide?_zero]
    rcases divides with rfl | rfl <;> simp [Operator.word?]
  · cases signed with
    | true =>
      by_cases overflows : dividend = BitVec.intMin width ∧ divisor = BitVec.allOnes width
      · obtain ⟨rfl, rfl⟩ := overflows
        rw [divide?_overflow filled]
        rcases divides with rfl | rfl <;> simp [Operator.word?]
      · rw [divide?_signed filled zero (not_and_or.mp overflows)]
        rcases divides with rfl | rfl <;> simpa [Operator.word?, overflows] using zero
    | false =>
      obtain rfl : high = 0 := filled
      rw [divide?_unsigned zero]
      rcases divides with rfl | rfl <;> simpa [Operator.word?] using zero

theorem low_of_setWidth {bytes more : Nat} {word other : BitVec 64} (narrower : bytes ≤ more)
    (same : word.setWidth (8 * more) = other.setWidth (8 * more)) : low bytes word = low bytes other := by
  rw [← low_low narrower, low_congr same, low_low narrower]

end Word

theorem Operator.divide?_wide {op : Operator} {signed : Bool} {size : Int} {left den : BitVec 64}
    (wide : size = 4 ∨ size = 8) :
    op.divide? signed size left den =
      (op.word? signed (left.setWidth (8 * size.toNat)) (den.setWidth _)).map (·.setWidth 64) := by
  have whole : max size 4 = size := by omega
  dsimp only [divide?]
  rw [whole]
  simp only [setWidth_extend, low_setWidth]

/-- The operations that leave a quotient or a remainder in the accumulator. -/
structure Operation.Divides (oper : Operation) (op : Operator) (signed : Bool) : Prop where
  same : op = .div ∧ oper.family = .div ∨ op = .rem ∧ oper.family = .rem
  mnemonic : oper.mnemonic = if signed then .idiv else .div
  isSigned : oper.isSigned = signed

/-- What a word is divided by: a constant as it is written, and any other operand extended. -/
def Word.divisor (signed : Bool) (size : Int) (immediate : Option Int64) (right : BitVec 64) :
    BitVec 64 :=
  match immediate with
  | some value => value.toBitVec
  | none => Word.extend signed size.toNat right

namespace Machine

variable {w : World} {m mid next : Machine} {work : Register} {opnd : Operand}
  {left right : BitVec 64}

variable {oper : Operation}

theorem max_width (working : work.Working false) : max work.size 4 = 4 ∨ max work.size 4 = 8 := by
  rcases working.width with same | same | same | same <;> rw [same] <;> decide

theorem width_le_max (working : work.Working false) : work.size.toNat ≤ (max work.size 4).toNat := by
  rcases working.width with same | same | same | same <;> rw [same] <;> decide

theorem widening_extension (oper : Operation) :
    (widening oper).extension? = some oper.isSigned := by
  unfold widening
  cases oper.isSigned <;> rfl

theorem Wrote.congr (wrote : Wrote target v m next)
    (same : low target.size.toNat v = low target.size.toNat value) : Wrote target value m next :=
  { wrote with content := by rw [wrote.content, ← blend_low, same, blend_low] }

/-- Narrow operands are extended on the way to the scratch register, and constants are not. -/
theorem staging_runs (oper : Operation) (presents : m.Presents false w work opnd left right) :
    ∃ after, step w m (accumulatorStaging oper work opnd) = some after ∧
      Wrote (scratch.resize (max work.size 4))
        (divisor oper.isSigned work.size opnd.immediate? right) m after := by
  obtain ⟨working, _, reads, _, rights⟩ := presents
  have scratch : (Register.scratch.resize (max work.size 4)).Working false :=
    scratch_working (by have := max_width working; omega)
  have variable_ : opnd.isImmediate = false → width? opnd = some work.size → ∃ after,
      step w m (accumulatorStaging oper work opnd) = some after ∧
        Wrote (Register.scratch.resize (max work.size 4))
          (extend oper.isSigned work.size.toNat right) m after := by
    intro read sized
    simp only [accumulatorStaging, read, Bool.not_false, Bool.true_and, decide_eq_true_eq]
    split
    · rename_i narrow
      have wider : work.size < (Register.scratch.resize (max work.size 4)).size := by
        simp only [resize_size]
        omega
      exact step_extension w m scratch (widening_extension oper) sized wider rights
    · rename_i wide
      have same : max work.size 4 = work.size := by omega
      rw [same] at scratch ⊢
      obtain ⟨after, stepped, wrote⟩ := step_mov w m scratch rights
      exact ⟨after, stepped, wrote.congr (low_extend (Nat.le_refl _)).symm⟩
  cases reads with
  | constant v =>
    obtain ⟨after, stepped, wrote⟩ := step_mov w m scratch
      (rfl : m.read w (max work.size 4) (.imm v) = _)
    exact ⟨after, stepped, wrote.congr (low_low (Nat.le_refl _))⟩
  | memory => exact variable_ rfl rfl
  | register other width distinct => exact variable_ rfl (congrArg some width)

theorem Presents.low_divisor (presents : m.Presents false w work opnd left right) (signed : Bool) :
    low work.size.toNat (divisor signed work.size opnd.immediate? right) = right := by
  have canonical := read_low presents.right
  cases presents.reads with
  | constant v => exact Option.some.inj presents.right
  | memory | register => exact (low_extend (Nat.le_refl _)).trans canonical

theorem loading_runs (w : World) (oper : Operation) (working : work.Working false)
    (lefts : m.view work = left) :
    ∃ after, run w (accumulatorLoading oper work) m = some after ∧
      (after.reg .rax).setWidth (8 * (max work.size 4).toNat) =
        (extend oper.isSigned work.size.toNat left).setWidth _ ∧ ∀ family, family ≠ .rax →
      after.reg family = m.reg family := by
  have accumulator : (Register.accumulator.resize (max work.size 4)).Working false :=
    .of_width (by simp [Register.accumulator, poolFamilies])
      (by have := max_width working; simp only [resize_size]; omega)
  have loaded := read_reg w m working
  rw [lefts] at loaded
  unfold accumulatorLoading
  by_cases narrow : work.size < 4
  · have wider : work.size < (Register.accumulator.resize (max work.size 4)).size := by
      simp only [resize_size]
      omega
    obtain ⟨after, stepped, wrote⟩ :=
      step_extension w m accumulator (widening_extension oper) rfl wider loaded
    rw [if_pos narrow]
    exact ⟨after, run_singleton stepped, setWidth_congr wrote.view, wrote.others⟩
  · have same : max work.size 4 = work.size := by omega
    rw [if_neg narrow, same, setWidth_extend]
    by_cases inside : work.family = .rax
    · rw [if_neg (by simpa using inside)]
      refine ⟨m, rfl, ?_, fun _ _ => rfl⟩
      rw [← lefts, Machine.view, inside, setWidth_low]
    · rw [if_pos (by simpa using inside)]
      rw [same] at accumulator
      obtain ⟨after, stepped, wrote⟩ := step_copy w m accumulator working rfl
      exact ⟨after, run_singleton stepped, setWidth_congr (lefts ▸ wrote.view), wrote.others⟩

theorem storing_runs (w : World) (oper : Operation) (working : work.Working false)
    (result : m.view (accumulatorResult oper work) = value) :
    ∃ after, run w (accumulatorStoring oper work) m = some after ∧
      low work.size.toNat (after.reg work.family) = low work.size.toNat value := by
  have wider := width_le_max working
  have wide : (work.resize (max work.size 4)).Working false :=
    working.resize (by have := max_width working; omega)
  have size : (accumulatorResult oper work).size = max work.size 4 := by
    unfold accumulatorResult
    split <;> rfl
  have half : (accumulatorResult oper work).Working false := by
    refine ⟨?_, size ▸ wide.supported⟩
    unfold accumulatorResult
    split <;> simp [accumulator, poolFamilies]
  unfold accumulatorStoring
  by_cases inside : (accumulatorResult oper work).family = work.family
  · rw [if_pos (by simpa [aliases] using inside)]
    refine ⟨m, rfl, ?_⟩
    rw [← result, ← inside, Machine.view, size, low_low wider]
  · rw [if_neg (by simpa [aliases] using inside)]
    obtain ⟨after, stepped, wrote⟩ := step_copy w m wide half size
    refine ⟨after, run_singleton stepped, ?_⟩
    rw [← result]
    exact wrote.view_resize work.size wider

theorem productBody_runs (working : work.Working false) (fam : oper.family = .unsignedMul)
    (mn : oper.mnemonic = .mul) (lefts : m.view work = left)
    (rights : low work.size.toNat (m.reg .r11) = right) :
    ∃ after, run w (accumulatorBody oper work) m = some after ∧
      low work.size.toNat (after.reg work.family) =
        (left.setWidth (8 * work.size.toNat) * right.setWidth (8 * work.size.toNat)).setWidth
        64 := by
  have scratch : (scratch.resize (max work.size 4)).Working false :=
    scratch_working (by have := max_width working; omega)
  obtain ⟨loaded, loads, extended, same⟩ := loading_runs w oper working lefts
  have acc : low work.size.toNat (loaded.reg .rax) = left := by
    rw [low_of_setWidth (width_le_max working) extended, low_extend (Nat.le_refl _), ← lefts]
    exact view_low work
  obtain ⟨multiplied, high, multiplies, paired⟩ := step_mul w loaded scratch (max_width working)
  have half : accumulatorResult oper work = ⟨.rax, max work.size 4⟩ := by
    simp [accumulatorResult, fam, accumulator, resize]
  have res := paired.low
  rw [resize_size, ← half] at res
  obtain ⟨after, stores, stored⟩ := storing_runs w oper working res
  refine ⟨after, ?_, stored.trans ?_⟩
  · simp only [accumulatorBody, accumulatorExtension, fam, mn, beq_self_eq_true, if_true,
      List.append_nil]
    exact run_join (run_join loads (run_singleton multiplies)) stores
  · have narrow : (max work.size 4).toNat ≤ 8 := by
      rcases max_width working with same | same <;> rw [same] <;> decide
    have scratched : loaded.reg .r11 = m.reg .r11 := same .r11 (by decide)
    rw [← acc, ← rights, ← scratched]
    exact low_product (width_le_max working) narrow _ _

theorem extension_runs (w : World) (m : Machine) (oper : Operation) (working : work.Working false)
    (divides : oper.family ≠ .unsignedMul) :
    ∃ after, run w (accumulatorExtension oper work) m = some after ∧
      (after.reg .rdx).setWidth (8 * (max work.size 4).toNat) =
        (if oper.isSigned then if ((m.reg .rax).setWidth (8 * (max work.size 4).toNat)).msb then
        BitVec.allOnes _ else 0 else 0) ∧ ∀ family, family ≠ .rdx →
      after.reg family = m.reg family := by
  simp only [accumulatorExtension, beq_iff_eq, divides, if_false]
  cases oper.isSigned with
  | true =>
    obtain ⟨after, stepped, filled, others⟩ := step_signFill w m (max_width working)
    simp only [beq_iff_eq] at stepped
    exact ⟨after, run_singleton stepped, by simpa using filled, others⟩
  | false =>
    have half : (⟨.rdx, 4⟩ : Register).Working false := ⟨by decide, by decide⟩
    obtain ⟨after, stepped, wrote⟩ := step_clear w m half
    refine ⟨after, run_singleton stepped, ?_, wrote.others⟩
    have content : after.reg .rdx = 0 := wrote.content_half rfl
    simp [content]

/-- Signed and unsigned quotients and remainders. The instruction faults where there is none. -/
theorem divisionBody_outcome {op : Operator} {signed : Bool} {divisor : BitVec 64} (w : World)
    (working : work.Working false) (divides : oper.Divides op signed) (lefts : m.view work = left)
    (rights : (m.reg .r11).setWidth (8 * (max work.size 4).toNat) = divisor.setWidth _) :
    (run w (accumulatorBody oper work) m).map (fun after =>
      low work.size.toNat (after.reg work.family)) = op.divide? signed work.size left divisor := by
  obtain ⟨same, mnemonic, sign⟩ := divides
  have plain : oper.family ≠ .unsignedMul := by
    rcases same with ⟨_, family⟩ | ⟨_, family⟩ <;> simp [family]
  have wide := max_width working
  have scratch : (scratch.resize (max work.size 4)).Working false :=
    scratch_working (by omega)
  obtain ⟨loaded, loads, accumulator, sameLoaded⟩ := loading_runs w oper working lefts
  obtain ⟨extended, extends_, filled, sameExtended⟩ :=
    extension_runs w loaded oper working plain
  rw [sign] at accumulator filled
  have low := sameExtended .rax (by decide)
  have staged := (sameExtended .r11 (by decide)).trans (sameLoaded .r11 (by decide))
  rw [← low] at filled accumulator
  rw [← staged] at rights
  have word := divide?_eq_word? ((extended.reg .r11).setWidth _) filled
    (same.imp And.left And.left)
  dsimp only [accumulatorBody, Operator.divide?]
  rw [run_append, run_append, run_join loads extends_, Option.bind_some, mnemonic, ← accumulator,
    ← rights, ← word]
  cases divided : divide? signed ((extended.reg .rdx).setWidth (8 * (max work.size 4).toNat))
      ((extended.reg .rax).setWidth _) ((extended.reg .r11).setWidth _) with
  | none =>
    have faults : step w extended _ = none := step_division w extended scratch wide divided
    rw [run, faults]
    rfl
  | some halves =>
    obtain ⟨split, steps, paired⟩ := step_division w extended scratch wide divided
    have val : split.view (accumulatorResult oper work) =
        (if op = .div then halves.1 else halves.2).setWidth 64 := by
      rcases same with ⟨rfl, family⟩ | ⟨rfl, family⟩
      · simp only [accumulatorResult, family]
        exact paired.low
      · simp only [accumulatorResult, family]
        exact paired.high
    obtain ⟨after, stores, stored⟩ := storing_runs w oper working val
    rw [run_singleton steps, Option.bind_some, stores]
    exact congrArg some stored

/-- Saving and restoring what is in use does not matter to what accumulator instructions leave. -/
theorem accumulator_content (frame : Frame) (oper : Operation)
    (presents : m.Presents false w work opnd left right) (fits : 16 ≤ m.room) :
    ∃ start : Machine, start.view work = left ∧
      (start.reg .r11).setWidth (8 * (max work.size 4).toNat) =
        (divisor oper.isSigned work.size opnd.immediate? right).setWidth _ ∧
      (run w (frame.accumulatorCode oper work opnd) m).map (·.reg work.family) =
        (run w (accumulatorBody oper work) start).map (·.reg work.family) := by
  have working := presents.working
  obtain ⟨staged, stages, wrote⟩ := staging_runs oper presents
  have pooled : ∀ fam ∈ ([.rax, .rdx] : List Family).filter (· != work.family),
      fam ∈ poolFamilies false := by
    intro fam mem
    have among : ∀ other ∈ ([.rax, .rdx] : List Family), other ∈ poolFamilies false := by
      decide
    exact among fam (List.mem_filter.mp mem).1
  have few : (([.rax, .rdx] : List Family).filter (· != work.family)).length ≤ 2 :=
    List.length_filter_le _ _
  have room := wrote.room (by simp)
  obtain ⟨start, same, content⟩ := saved_content (m := staged) w frame (accumulatorBody oper work)
    pooled (by omega) working.aside (by simp)
  refine ⟨start, ?_, ?_, ?_⟩
  · rw [Machine.view, same _ working.aside, wrote.others _ presents.apart]
    exact presents.left
  · rw [same _ (by decide)]
    exact setWidth_congr wrote.view
  · rw [Frame.accumulatorCode, run, stages]
    exact content

theorem product_runs (frame : Frame) (presents : m.Presents false w work opnd left right)
    (fits : 16 ≤ m.room) (fam : oper.family = .unsignedMul) (mn : oper.mnemonic = .mul) :
    ∃ after, run w (frame.accumulatorCode oper work opnd) m = some after ∧
      after.view work = (left.setWidth (8 * work.size.toNat) *
        right.setWidth (8 * work.size.toNat)).setWidth 64 := by
  obtain ⟨start, lefts, staged, content⟩ := accumulator_content frame oper presents fits
  have rights := low_of_setWidth (width_le_max presents.working) staged
  obtain ⟨mid, ran, product⟩ := productBody_runs (w := w) presents.working fam mn lefts
    (rights.trans (presents.low_divisor _))
  rw [ran, Option.map_some] at content
  obtain ⟨after, saved, kept⟩ := Option.map_eq_some_iff.mp content
  refine ⟨after, saved, ?_⟩
  rw [Machine.view, kept]
  exact product

theorem division_outcome (frame : Frame) {op : Operator} {signed : Bool}
    (presents : m.Presents false w work opnd left right) (fits : 16 ≤ m.room)
    (divides : oper.Divides op signed) :
    (run w (frame.accumulatorCode oper work opnd) m).map (·.view work) =
      op.divide? signed work.size left (divisor signed work.size opnd.immediate? right) := by
  obtain ⟨start, lefts, rights, content⟩ := accumulator_content frame oper presents fits
  rw [divides.isSigned] at rights
  have low := congrArg (Option.map (low work.size.toNat)) content
  simp only [Option.map_map] at low
  exact low.trans (divisionBody_outcome w presents.working divides lefts rights)

end Machine
end Nasm64
