import Nasm64.Proofs.Machine.Forward
import Nasm64.Proofs.Value.Operation

/-! What the operands of an operator are, and what the instructions that read them directly compute. -/
namespace Nasm64

open Lower

namespace Word

variable {bytes more : Nat}

/-- The low bytes of a product only depend on those of its factors. -/
theorem low_product (narrower : bytes ≤ more) (wide : more ≤ 8) (left right : BitVec 64) :
    low bytes ((left.setWidth (8 * more) * right.setWidth (8 * more)).setWidth 64) =
      ((low bytes left).setWidth (8 * bytes) * (low bytes right).setWidth (8 * bytes)).setWidth
      64 := by
  have narrow : 8 * bytes ≤ 8 * more := by omega
  have product (word : BitVec (8 * more)) : (word.setWidth 64).setWidth (8 * bytes) =
      word.setWidth (8 * bytes) := BitVec.setWidth_setWidth_of_le word (by omega)
  have factor (word : BitVec 64) : (word.setWidth (8 * more)).setWidth (8 * bytes) =
      word.setWidth (8 * bytes) := BitVec.setWidth_setWidth_of_le word narrow
  rw [setWidth_low, setWidth_low, low, product, BitVec.setWidth_mul _ _ narrow, factor, factor]

section

variable (width : bytes = 1 ∨ bytes = 2 ∨ bytes = 4 ∨ bytes = 8)

include width

theorem low_toNat_mod (word : BitVec 64) : (low bytes word).toNat % 64 = word.toNat % 64 := by
  have bound := word.isLt
  simp only [low, BitVec.toNat_setWidth]
  rcases width with rfl | rfl | rfl | rfl <;> omega

/-- The hardware masks the count of a shift. -/
theorem maskCount_eq {count other : BitVec 64} (same : count.toNat % 64 = other.toNat % 64) :
    maskCount bytes count = (other.setWidth (8 * bytes)).toNat % Operator.countBits (8 * bytes) := by
  rcases width with rfl | rfl | rfl | rfl
  all_goals
    simp [maskCount, Operator.countBits]
    omega

end

end Word

/-- The addresses of frame slots and of labels, which no computation changes. -/
inductive Address.IsFixed : Address → Prop
  | slot (offset : Int64) : IsFixed (.frameSlot offset)
  | label (name : String) : IsFixed (.atLabel name)

theorem Address.IsFixed.same {address : Address} {m next : Machine} (fixed : address.IsFixed)
    (base : next.reg .rbp = m.reg .rbp) : next.address w address = m.address w address := by
  cases fixed with
  | slot => simp [Machine.address, Machine.start, frameSlot, Register.framePointer, base]
  | label => rfl

/-- The operands of an operator on a class that works in some family: constants, fixed places in
memory, and registers of other families. -/
inductive Operand.Reads (size : Int) (work : Family) : Bool → Operand → Prop
  | constant (value : Int64) : Reads size work false (.imm value)
  | memory {float : Bool} {address : Address} (fixed : address.IsFixed) :
    Reads size work float (.mem size address)
  | register {float : Bool} {register : Register} (working : register.Working float)
    (width : register.size = size) (apart : register.family ≠ work) :
    Reads size work float (.reg register)

namespace Machine

variable {w : World} {m middle next : Machine} {work : Register} {operand : Operand}
  {left right : BitVec 64}

theorem Wrote.read {tgt : Register} (wrote : Wrote tgt val m next) (working : tgt.Working false)
    (reads : operand.Reads size tgt.family false) :
    next.read w size operand = m.read w size operand := by
  cases reads with
  | constant val => rfl
  | memory fixed =>
    have base : next.reg .rbp = m.reg .rbp := by
      refine wrote.others .rbp fun same => ?_
      have ordinary := working.ordinary
      rw [← same] at ordinary
      cases ordinary
    simp [Machine.read, fetch, fixed.same base, wrote.memory]
  | register other width apart =>
    subst width
    rw [read_reg _ _ other, read_reg _ _ other, wrote.view_apart apart]

/-- The operands of an operator on a class, one of them in a register that it works in. -/
structure Presents (machine : Machine) (float : Bool) (world : World) (work : Register)
    (operand : Operand) (left right : BitVec 64) : Prop where
  working : work.Working float
  apart : work.family ≠ Register.staging float
  reads : operand.Reads work.size work.family float
  left : machine.view work = left
  right : machine.content float world work.size operand = some right

section

variable (presents : m.Presents false w work operand left right)

include presents

theorem encoded_runs :
    ∃ middle, run w (encoded operand work.size).1 m = some middle ∧
      middle.reg work.family = m.reg work.family ∧
      middle.fetch w work.size (encoded operand work.size).2 = some right := by
  obtain ⟨working, apart, reads, _, found⟩ := presents
  unfold encoded
  cases encodable : operand.encodable work.size with
  | true => exact ⟨m, rfl, rfl, (read_fetch encodable).trans found⟩
  | false =>
    cases reads with
    | memory => cases encodable
    | register => cases encodable
    | constant v =>
      have wide : work.size = 8 := by
        simp only [Operand.encodable, Bool.or_eq_false_iff, decide_eq_false_iff_not] at encodable
        have := working.width
        omega
      have found : m.read w 8 (.imm v) = some right := wide ▸ found
      have scratch : Register.scratch.Working false := Register.scratch_working (by decide)
      obtain ⟨middle, stepped, wrote⟩ := step_mov w m scratch found
      have view : middle.view .scratch = right := wrote.view.trans Word.low_eight
      refine ⟨middle, run_singleton stepped, wrote.others _ apart, ?_⟩
      rw [wide, ← view]
      exact read_reg w middle scratch

theorem direct_runs (known : mnemonic.arithmetic? = some compute)
    (wide : mnemonic = .imul → work.size ≠ 1) :
    ∃ after, run w (applyDirect mnemonic work operand) m = some after ∧
      after.view work = Word.apply work.size.toNat compute left right := by
  obtain ⟨middle, staged, kept, fetched⟩ := encoded_runs presents
  obtain ⟨after, stepped, wrote⟩ := step_arithmetic w middle presents.working known wide fetched
  refine ⟨after, run_join staged (run_singleton stepped), ?_⟩
  rw [wrote.view, Word.apply, Word.low_setWidth, kept, ← presents.left, Machine.view, Word.apply,
    Word.setWidth_low]

theorem comparison_runs {setter : Mnemonic} {test : Flags → Bool} {dst : Register}
    (same : dst.family = work.family) (known : setter.condition? = some test) :
    ∃ after, run w (applyDirect .cmp work operand ++ [.unary setter (.reg (dst.resize 1))]) m =
      some after ∧ after.view (dst.resize 1) =
      if test (Flags.ofDifference (left.setWidth (8 * work.size.toNat))
      (right.setWidth (8 * work.size.toNat))) then 1 else 0 := by
  obtain ⟨middle, staged, kept, fetched⟩ := encoded_runs presents
  obtain ⟨compared, stepped, _, _, flags⟩ := step_cmp w middle presents.working fetched
  have byte : (dst.resize 1).Working false := ⟨same ▸ presents.working.family, rfl⟩
  obtain ⟨after, sets, wrote⟩ := step_condition w compared byte known rfl
  refine ⟨after, run_join (run_join staged (run_singleton stepped)) (run_singleton sets), ?_⟩
  have operand : (middle.reg work.family).setWidth (8 * work.size.toNat) =
      left.setWidth (8 * work.size.toNat) := by
    rw [kept, ← presents.left, Machine.view, Word.setWidth_low]
  rw [wrote.view, flags, operand]
  split
  · rfl
  · rfl

end

theorem imul_runs (working : work.Working false) (byte : work.size = 1) (lefts : m.view work = left)
    (fetched : m.fetch w 4 src = some factor) (rights : Word.low 1 factor = right) :
    ∃ after, step w m (.binary .imul (.reg (work.resize 4)) src) = some after ∧
      after.view work = (left.setWidth (8 * 1) * right.setWidth (8 * 1)).setWidth 64 := by
  obtain ⟨fam, size⟩ := work
  obtain rfl : size = 1 := byte
  have wide : (Register.resize ⟨fam, 1⟩ 4).Working false := working.resize (by decide)
  have known : Mnemonic.imul.arithmetic? = some fun _ first second => first * second := rfl
  obtain ⟨after, stepped, wrote⟩ := step_arithmetic w m wide known (by simp) fetched
  have product := Word.low_product (by decide : 1 ≤ 4) (by decide) (m.reg fam) factor
  refine ⟨after, stepped, (wrote.view_resize 1 (by simp)).trans ?_⟩
  rw [rights, show Word.low 1 (m.reg fam) = left from lefts] at product
  exact product

/-- Bytes are multiplied at 32 bits. -/
theorem byteProduct_runs (presents : m.Presents false w work operand left right)
    (byte : work.size = 1) :
    ∃ after, run w (applyMul work operand) m = some after ∧
      after.view work = (left.setWidth (8 * 1) * right.setWidth (8 * 1)).setWidth 64 := by
  obtain ⟨working, apart, reads, lefts, rights⟩ := presents
  obtain ⟨fam, size⟩ := work
  obtain rfl : size = 1 := byte
  have wide : (Register.resize ⟨fam, 1⟩ 4).Working false := working.resize (by decide)
  have keeps : Mnemonic.movsx.extension? = some true := rfl
  have loaded := read_reg w m working
  rw [lefts] at loaded
  obtain ⟨widened, widens, wrote⟩ := step_extension w m wide keeps rfl (by simp) loaded
  have extended : widened.view ⟨fam, 1⟩ = left :=
    (wrote.view_resize 1 (by simp)).trans ((Word.low_extend (Nat.le_refl 1)).trans (read_low loaded))
  have kept : widened.read w 1 operand = some right := (wrote.read wide reads).trans rights
  have half : (Register.scratch.resize 4).Working false := Register.scratch_working (by decide)
  -- Anything but a constant is widened in the scratch register.
  have staged : width? operand = some 1 → ∃ after,
      run w [.binary .movsx (.reg (Register.scratch.resize 4)) operand,
        .binary .imul (.reg (Register.resize ⟨fam, 1⟩ 4)) (.reg (Register.scratch.resize 4))]
        widened = some after ∧
      after.view ⟨fam, 1⟩ = (left.setWidth (8 * 1) * right.setWidth (8 * 1)).setWidth 64 := by
    intro sized
    obtain ⟨middle, stages, staged⟩ := step_extension w widened half keeps sized (by simp) kept
    have factor : Word.low 1 (middle.view (Register.scratch.resize 4)) = right := by
      rw [staged.view]
      exact (Word.low_low (by decide)).trans ((Word.low_extend (Nat.le_refl 1)).trans (read_low kept))
    have fetched : middle.fetch w 4 (.reg (Register.scratch.resize 4)) =
        some (middle.view (Register.scratch.resize 4)) := read_reg w middle half
    obtain ⟨after, multiplies, product⟩ := imul_runs working rfl
      ((staged.view_apart apart).trans extended) fetched factor
    exact ⟨after, run_cons stages (run_singleton multiplies), product⟩
  cases reads with
  | constant v =>
    have fetched : widened.fetch w 4 (.imm v) = some (Word.low 4 v.toBitVec) := rfl
    have factor : Word.low 1 (Word.low 4 v.toBitVec) = right :=
      (Word.low_low (by decide)).trans (Option.some.inj kept)
    obtain ⟨after, multiplies, product⟩ := imul_runs working rfl extended fetched factor
    exact ⟨after, run_cons widens (run_singleton multiplies), product⟩
  | memory =>
    obtain ⟨after, ran, product⟩ := staged rfl
    exact ⟨after, run_cons widens ran, product⟩
  | register other width distinct =>
    obtain ⟨after, ran, product⟩ := staged (congrArg some width)
    exact ⟨after, run_cons widens ran, product⟩

theorem inUseOf_working {frame : Frame} {r : Register} {families : List Family}
    (pooled : ∀ fam ∈ families, fam ∈ Register.poolFamilies false)
    (mem : r ∈ frame.inUseOf families) : r.Working false ∧ r.family ∈ families := by
  obtain ⟨fam, listed, rfl⟩ := List.mem_map.mp mem
  have among := (List.mem_filter.mp listed).1
  exact ⟨⟨List.mem_cons_of_mem _ (pooled fam among), rfl⟩, among⟩

/-- Code around which some families are saved leaves in another one what it leaves there by itself. -/
theorem saved_content (w : World) (frame : Frame) {families : List Family} (body : Code)
    {fam : Family} (pooled : ∀ other ∈ families, other ∈ Register.poolFamilies false)
    (fits : 8 * families.length ≤ m.room) (aside : fam ≠ .rsp) (spared : fam ∉ families) :
    ∃ start : Machine, (∀ other, other ≠ .rsp → start.reg other = m.reg other) ∧
      (run w (saveCode (frame.inUseOf families) ++ body ++ restoreCode (frame.inUseOf families))
        m).map (·.reg fam) = (run w body start).map (·.reg fam) := by
  have working : ∀ r ∈ frame.inUseOf families, r.Working false :=
    fun r mem => (inUseOf_working pooled mem).1
  have few : (frame.inUseOf families).length ≤ families.length := by
    simpa [Frame.inUseOf] using List.length_filter_le frame.inUse families
  obtain ⟨start, saves, same⟩ := save_runs w m working (by omega)
  refine ⟨start, same, ?_⟩
  rw [run_append, run_append, saves, Option.bind_some]
  cases ran : run w body start with
  | none => rfl
  | some middle =>
    obtain ⟨after, restores, kept⟩ := restore_runs w middle working
    rw [Option.bind_some, restores, Option.map_some, Option.map_some,
      kept fam aside fun r mem equal =>
        spared (equal ▸ (inUseOf_working pooled mem).2)]

section Shift

variable {mnemonic : Mnemonic} {compute : (width : Nat) → BitVec width → Nat → BitVec width}

def Shifted (bytes : Nat) (compute : (width : Nat) → BitVec width → Nat → BitVec width)
    (left right content : BitVec 64) : Prop :=
  Word.low bytes content = (compute (8 * bytes) (left.setWidth _)
    ((right.setWidth (8 * bytes)).toNat % Operator.countBits (8 * bytes))).setWidth 64

theorem shift_steps (w : World) (m : Machine) (working : work.Working false)
    (known : mnemonic.shift? = some compute) (lefts : m.view work = left)
    (found : src = .imm (Int64.ofBitVec count) ∨ src = .reg ⟨.rcx, 1⟩ ∧ count = m.reg .rcx)
    (counted : count.toNat % 64 = right.toNat % 64) :
    ∃ after, step w m (.binary mnemonic (.reg work) src) = some after ∧
      Shifted work.size.toNat compute left right (after.reg work.family) := by
  obtain ⟨after, stepped, wrote⟩ := step_shift w m working known found
  refine ⟨after, stepped, ?_⟩
  have operand : (m.reg work.family).setWidth (8 * work.size.toNat) =
      left.setWidth (8 * work.size.toNat) := by
    rw [← lefts, Machine.view, Word.setWidth_low]
  rw [Shifted, wrote.content, Word.low_blend, Word.shift, Word.low_setWidth, operand,
    Word.maskCount_eq working.bytes counted]

theorem shiftBody_runs (working : work.Working false) (apart : work.family ≠ .rcx)
    (known : mnemonic.shift? = some compute) (lefts : m.view work = left)
    (counted : (m.reg .r11).toNat % 64 = right.toNat % 64) :
    ∃ after, run w (shiftBody mnemonic work) m = some after ∧
      Shifted work.size.toNat compute left right (after.reg work.family) := by
  have counter : (⟨.rcx, 4⟩ : Register).Working false := ⟨by decide, by decide⟩
  have half : (Register.scratch.resize 4).Working false := Register.scratch_working (by decide)
  have narrow : (4 : Int).toNat = 1 ∨ (4 : Int).toNat = 2 ∨ (4 : Int).toNat = 4 ∨
      (4 : Int).toNat = 8 := by decide
  obtain ⟨middle, moves, wrote⟩ := step_copy w m counter half rfl
  have content : (middle.reg .rcx).toNat % 64 = right.toNat % 64 := by
    rw [wrote.content_half rfl, ← counted]
    exact (Word.low_toNat_mod narrow _).trans (Word.low_toNat_mod narrow _)
  obtain ⟨after, shifts, shifted⟩ := shift_steps w middle working known
    ((wrote.view_apart apart).trans lefts) (.inr ⟨rfl, rfl⟩) content
  exact ⟨after, run_cons moves (run_singleton shifts), shifted⟩

theorem shiftExchanged_runs (working : work.Working false) (same : work.family = .rcx)
    (known : mnemonic.shift? = some compute) (lefts : m.view work = left)
    (counted : (m.reg .r11).toNat % 64 = right.toNat % 64) :
    ∃ after, run w (shiftExchanged mnemonic work) m = some after ∧
      Shifted work.size.toNat compute left right (after.reg work.family) := by
  obtain ⟨fam, size⟩ := work
  obtain rfl : fam = .rcx := same
  have scratch : (Register.scratch.resize size).Working false := Register.scratch_working working.width
  have exchanges : step w m (.binary .xchg (.reg ⟨.rcx, 8⟩) (.reg .scratch)) =
      some ((m.set .rcx (m.reg .r11)).set .r11 (m.reg .rcx)) := rfl
  obtain ⟨middle, shifts, shifted⟩ := shift_steps w
    ((m.set .rcx (m.reg .r11)).set .r11 (m.reg .rcx)) scratch known lefts
    (.inr ⟨rfl, rfl⟩) counted
  obtain ⟨after, moves, wrote⟩ := step_copy w middle working scratch rfl
  refine ⟨after, run_cons exchanges (run_cons shifts (run_singleton moves)), ?_⟩
  exact (wrote.view.trans (view_low (Register.scratch.resize size))).trans shifted

theorem shift_runs (frame : Frame) (presents : m.Presents false w work operand left right)
    (known : mnemonic.shift? = some compute) (fits : 8 ≤ m.room) :
    ∃ after, run w (frame.shiftCode mnemonic work operand) m = some after ∧
      Shifted work.size.toNat compute left right (after.reg work.family) := by
  obtain ⟨working, apart, reads, lefts, rights⟩ := presents
  have scratch : (Register.scratch.resize work.size).Working false :=
    Register.scratch_working working.width
  obtain ⟨staged, stages, wrote⟩ := step_mov w m scratch rights
  have counted : (staged.reg .r11).toNat % 64 = right.toNat % 64 := by
    have view := wrote.view.trans (read_low rights)
    rw [← view]
    exact (Word.low_toNat_mod working.bytes _).symm
  -- Constant counts aside, the count is in the scratch register now.
  have behind : operand.immediate? = none → ∃ after,
      run w (frame.shiftCode mnemonic work operand) m = some after ∧
        Shifted work.size.toNat compute left right (after.reg work.family) := by
    intro none
    have room : 8 ≤ staged.room := (wrote.room scratch.aside).symm ▸ fits
    have lefts := (wrote.view_apart apart).trans lefts
    simp only [Frame.shiftCode, none]
    by_cases exchanged : work.family = .rcx
    · rw [if_pos (by simpa using exchanged)]
      obtain ⟨after, ran, shifted⟩ := shiftExchanged_runs working exchanged known lefts counted
      exact ⟨after, run_cons stages ran, shifted⟩
    · rw [if_neg (by simpa using exchanged)]
      obtain ⟨start, same, content⟩ := saved_content (m := staged) w frame (shiftBody mnemonic work)
        (by decide : ∀ other ∈ [.rcx], other ∈ Register.poolFamilies false) (by simpa using room)
        working.aside (by simpa using exchanged)
      have lefts : start.view work = left := by
        rw [Machine.view, same _ working.aside]
        exact lefts
      rw [← same _ (by decide)] at counted
      obtain ⟨middle, ran, shifted⟩ := shiftBody_runs (w := w) working exchanged known lefts counted
      rw [ran, Option.map_some] at content
      obtain ⟨after, saved, kept⟩ := Option.map_eq_some_iff.mp content
      exact ⟨after, run_cons stages saved, kept ▸ shifted⟩
  cases reads with
  | constant v =>
    have masked : (v &&& 63).toBitVec.toNat % 64 = right.toNat % 64 := by
      obtain rfl : Word.low work.size.toNat v.toBitVec = right := Option.some.inj rights
      rw [Word.low_toNat_mod working.bytes, Int64.toBitVec_and, BitVec.toNat_and]
      exact (congrArg (· % 64) (Nat.and_two_pow_sub_one_eq_mod _ 6)).trans (Nat.mod_mod _ _)
    obtain ⟨after, shifts, shifted⟩ := shift_steps w m working known lefts (.inl rfl) masked
    exact ⟨after, run_singleton shifts, shifted⟩
  | memory => exact behind rfl
  | register other width distinct => exact behind rfl

end Shift

end Machine
end Nasm64
