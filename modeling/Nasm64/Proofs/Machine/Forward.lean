import Nasm64.Proofs.Machine.Bracketed
import Nasm64.Proofs.Machine.Word

/-! What instructions on general registers leave behind. Each of them has an outcome when its operands
are of the right width. -/
namespace Nasm64

open Lower Word

theorem Ty.inPool_of_isScalar {ty : Ty} (scalar : ty.isScalar = true) :
    Register.inPool ty.isFloat ty.registerSize = true := by
  cases ty with
  | prim primitive => cases primitive <;> rfl
  | pointer _ => rfl
  | _ => cases scalar

namespace Register

def staging (isFloat : Bool) : Family := if isFloat then floatScratch.family else scratch.family

/-- The registers of a class that values are computed in, at a width that they have. -/
structure Working (isFloat : Bool) (register : Register) : Prop where
  family : register.family ∈ staging isFloat :: poolFamilies isFloat
  supported : inPool isFloat register.size = true

namespace Working

variable {float : Bool} {r : Register}

theorem of_width (fam : r.family ∈ .r11 :: poolFamilies false)
    (width : r.size = 1 ∨ r.size = 2 ∨ r.size = 4 ∨ r.size = 8) : r.Working false :=
  ⟨fam, by simpa [inPool, or_assoc] using width⟩

theorem width (working : r.Working false) : r.size = 1 ∨ r.size = 2 ∨ r.size = 4 ∨ r.size = 8 := by
  simpa [inPool, or_assoc] using working.supported

section

variable (working : r.Working float)

include working

theorem isFloat : r.isFloat = float := by
  have mem := working.family
  revert mem
  simp only [Register.isFloat]
  generalize r.family = fam
  revert fam
  cases float <;> decide

theorem ordinary : r.family.isOrdinary = true := by
  have mem := working.family
  revert mem
  generalize r.family = fam
  revert fam
  cases float <;> decide

theorem aside : r.family ≠ .rsp := by
  intro same
  have ord := working.ordinary
  rw [same] at ord
  cases ord

theorem valid : r.valid = true := by
  have viewed : ∀ fam ∈ staging float :: poolFamilies float, ∀ size,
      inPool float size = true → fam.hasView size = true := by
    cases float with
    | false => simp [staging, poolFamilies, inPool, Family.hasView]
    | true => simp +contextual [staging, poolFamilies, inPool, Family.hasView, Family.float,
        floatScratch]
  exact viewed _ working.family _ working.supported

end

theorem general (working : r.Working false) : r.isGeneral = true := by
  simp [isGeneral, working.valid, working.isFloat]

theorem resize {size : Int} (working : r.Working false)
    (width : size = 1 ∨ size = 2 ∨ size = 4 ∨ size = 8) : (r.resize size).Working false :=
  .of_width working.family width

theorem bytes (working : r.Working false) : r.size.toNat = 1 ∨ r.size.toNat = 2 ∨
    r.size.toNat = 4 ∨ r.size.toNat = 8 := by
  rcases working.width with same | same | same | same <;> rw [same] <;> decide

end Working

theorem scratch_working {size : Int} (width : size = 1 ∨ size = 2 ∨ size = 4 ∨ size = 8) :
    (scratch.resize size).Working false := .of_width (by simp) width

end Register

namespace Machine

variable {w : World} {m middle next : Machine} {target : Register} {source : Operand}
  {value : BitVec 64}

/-- The value of an operand of the given width, whether or not an instruction can hold it. -/
def read (world : World) (machine : Machine) (size : Int) : Operand → Option (BitVec 64)
  | .imm value => some (Word.low size.toNat value.toBitVec)
  | operand => machine.fetch world size operand

/-- The value of an operand of a class. Floats are never constants of an instruction. -/
def content (float : Bool) (world : World) (machine : Machine) (size : Int) (operand : Operand) :
    Option (BitVec 64) :=
  match float, operand with
  | false, operand => machine.read world size operand
  | true, .reg source =>
    if source.isFloat && source.size == size then some (machine.view source) else none
  | true, .mem width address =>
    if width == size then some (machine.memory.load (machine.address world address) size.toNat)
    else none
  | true, _ => none

theorem read_fetch (encodable : source.encodable size = true) : m.fetch w size source =
    m.read w size source := by
  cases source with
  | imm value => simp [read, fetch, encodable]
  | reg | mem | place | symbol => rfl

theorem read_reg (w : World) (m : Machine) (working : target.Working false) :
    m.read w target.size (.reg target) = some (m.view target) := by
  simp [read, fetch, working.general]

theorem content_reg (w : World) (m : Machine) (working : target.Working float) :
    m.content float w target.size (.reg target) = some (m.view target) := by
  have class_ := working.isFloat
  cases float with
  | false => exact read_reg w m working
  | true => simp [content, class_]

theorem view_low (r : Register) : low r.size.toNat (m.view r) = m.view r :=
  low_low (Nat.le_refl _)

theorem read_low (found : m.read w size source = some value) : Word.low size.toNat value =
    value := by
  cases source with
  | imm constant =>
    cases found
    exact low_low (Nat.le_refl _)
  | reg r =>
    simp only [read, fetch] at found
    split at found
    · rename_i fits
      simp only [Bool.and_eq_true, beq_iff_eq] at fits
      cases found
      rw [← fits.2]
      exact view_low r
    · cases found
  | mem width address =>
    simp only [read, fetch] at found
    split at found
    · cases found
      exact Memory.low_load (Nat.le_refl _)
    · cases found
  | place | symbol => cases found

theorem address_advance (addr : Address) (bytes : Int64) :
    m.address w (addr.advance bytes) = m.address w addr + bytes.toBitVec := by
  simp only [Machine.address, Address.advance, Int64.toBitVec_add]
  ac_rfl

theorem run_cons (stepped : step w m line = some middle) (ran : run w rest middle = some next) :
    run w (line :: rest) m = some next := by
  simp [run, stepped, ran]

theorem run_join (before : run w first m = some middle) (after : run w second middle = some next) :
    run w (first ++ second) m = some next := by
  rw [run_append, before]
  exact after

theorem run_singleton (stepped : step w m line = some next) : run w [line] m =
    some next := run_cons stepped rfl

/-- A value was written to a register, and nothing else but the flags changed. -/
structure Wrote (target : Register) (value : BitVec 64) (before after : Machine) : Prop where
  content : after.reg target.family =
    Word.blend target.size.toNat (before.reg target.family) value
  others : ∀ family, family ≠ target.family → after.reg family = before.reg family
  memory : after.memory = before.memory
  floor : after.floor = before.floor

namespace Wrote

theorem of_update {flags : Flags} :
    Wrote target value m (m.update target.family
      (blend target.size.toNat (m.reg target.family) value, flags)) where
  content := if_pos rfl
  others := fun _ apart => if_neg apart
  memory := rfl
  floor := rfl

section

variable (wrote : Wrote target value m next)

include wrote

theorem view : next.view target = low target.size.toNat value := by
  rw [Machine.view, wrote.content, Word.low_blend]

theorem view_resize (size : Int) (narrower : size.toNat ≤ target.size.toNat) :
    next.view (target.resize size) = low size.toNat value := by
  have inner := wrote.view
  rw [Machine.view] at inner
  rw [Machine.view, Register.resize_family, Register.resize_size, ← Word.low_low narrower, inner,
    Word.low_low narrower]

theorem content_half (half : target.size = 4) : next.reg target.family = low 4 value := by
  rw [wrote.content, half]
  rfl

theorem view_apart (apart : r.family ≠ target.family) : next.view r = m.view r := by
  rw [Machine.view, Machine.view, wrote.others _ apart]

theorem room (aside : target.family ≠ .rsp) : next.room = m.room := by
  rw [Machine.room, Machine.room, wrote.floor, wrote.others _ (Ne.symm aside)]

end

end Wrote

theorem Pushed.room (pushed : Pushed r m next) : next.room = m.room - 8 := by
  have stack := pushed.toNat_stack
  simp only [Machine.room, pushed.floor]
  omega

structure Paired (size : Int) (high low : BitVec (8 * size.toNat)) (before after : Machine) :
    Prop where
  low : after.view ⟨.rax, size⟩ = low.setWidth 64
  high : after.view ⟨.rdx, size⟩ = high.setWidth 64
  others : ∀ family, family ≠ .rax → family ≠ .rdx → after.reg family = before.reg family

theorem Paired.of_write {size : Int} {high low : BitVec (8 * size.toNat)} {flags : Flags} :
    Paired size high low m { (m.write ⟨.rax, size⟩ (low.setWidth 64)).write ⟨.rdx, size⟩
      (high.setWidth 64) with flags } where
  low := by
    simp only [view, write, set, reduceCtorEq, if_false, if_true, low_blend, low_setWidth]
  high := by simp only [view, write, set, if_true, low_blend, low_setWidth]
  others := by
    intro fam low high
    simp only [write, set, low, high, if_false]

section

variable (w) (m)

theorem step_general (working : target.Working false) (plain : mn ≠ .xchg)
    (computed : m.general w mn target source = some res) :
    step w m (.binary mn (.reg target) source) = some (m.update target.family res) := by
  simp [step, binary, working.aside, plain, Machine.computed, working.general, computed]

theorem general_mov (found : m.read w target.size source = some value) :
    m.general w .mov target source = some (blend target.size.toNat (m.reg target.family) value,
      m.flags) := by
  cases source with
  | imm const =>
    cases found
    simp only [general, blend_low]
  | reg | mem | place | symbol =>
    simp only [read] at found
    simp only [general, found, Option.map_some]

theorem step_mov (working : target.Working false)
    (found : m.read w target.size source = some value) :
    ∃ next, step w m (.mov (.reg target) source) = some next ∧ Wrote target value m next :=
  ⟨_, step_general w m working (by decide) (general_mov w m found), .of_update⟩

theorem step_copy (working : target.Working false) (other : origin.Working false)
    (same : origin.size = target.size) :
    ∃ next, step w m (.mov (.reg target) (.reg origin)) = some next ∧
      Wrote target (m.view origin) m next :=
  step_mov w m working (same ▸ read_reg w m other)

theorem general_extension (extends_ : mnemonic.extension? = some signed)
    (sized : width? source = some width) (wider : width < target.size)
    (found : m.read w width source = some value) :
    m.general w mnemonic target source =
      some (blend target.size.toNat (m.reg target.family) (extend signed width.toNat value),
      m.flags) := by
  have fetched : m.fetch w width source = some value := by
    cases source with
    | imm constant => cases sized
    | reg | mem | place | symbol => exact found
  cases mnemonic with
  | movsx | movsxd | movzx => simp [general, extends_, sized, fetched, wider]
  | _ => cases extends_

section

variable (working : target.Working false)

include working

theorem step_extension (extends_ : mn.extension? = some signed) (sized : width? source = some width)
    (wider : width < target.size) (found : m.read w width source = some value) :
    ∃ next, step w m (.binary mn (.reg target) source) = some next ∧
      Wrote target (extend signed width.toNat value) m next := by
  have computed := general_extension w m extends_ sized wider found
  refine ⟨_, step_general w m working ?_ computed, .of_update⟩
  rintro rfl
  cases extends_

theorem step_arithmetic (known : mn.arithmetic? = some op) (wide : mn = .imul → target.size ≠ 1)
    (found : m.fetch w target.size source = some value) :
    ∃ next, step w m (.binary mn (.reg target) source) = some next ∧
      Wrote target (apply target.size.toNat op (m.reg target.family) value) m next := by
  have computed : m.general w mn target source =
      some (blend target.size.toNat (m.reg target.family)
        (apply target.size.toNat op (m.reg target.family) value),
        w.flags mn (m.reg target.family) value) := by
    cases mn with
    | imul => simp [general, known, found, wide rfl]
    | add | sub | and | or | xor => simp [general, known, found]
    | _ => cases known
  refine ⟨_, step_general w m working ?_ computed, .of_update⟩
  rintro rfl
  cases known

theorem step_clear :
    ∃ next, step w m (.binary .xor (.reg target) (.reg target)) = some next ∧
      Wrote target 0 m next := by
  have known : Mnemonic.xor.arithmetic? = some fun _ left right => left ^^^ right := rfl
  have fetched : m.fetch w target.size (.reg target) = some (m.view target) := read_reg w m working
  obtain ⟨next, stepped, wrote⟩ := step_arithmetic w m working known (by simp) fetched
  refine ⟨next, stepped, ?_⟩
  rwa [Word.apply, Machine.view, setWidth_low, BitVec.xor_self, BitVec.setWidth_zero] at wrote

theorem step_shift (known : mn.shift? = some op)
    (found : source = .imm (Int64.ofBitVec count) ∨ source = .reg ⟨.rcx, 1⟩ ∧ count = m.reg .rcx) :
    ∃ next, step w m (.binary mn (.reg target) source) = some next ∧
      Wrote target (shift target.size.toNat op (m.reg target.family) count) m next := by
  have computed : m.general w mn target source =
      some (blend target.size.toNat (m.reg target.family)
        (shift target.size.toNat op (m.reg target.family) count),
        w.flags mn (m.reg target.family) count) := by
    cases mn with
    | shl | shr | sar =>
      cases known
      rcases found with rfl | ⟨rfl, rfl⟩ <;> rfl
    | _ => cases known
  refine ⟨_, step_general w m working ?_ computed, .of_update⟩
  rintro rfl
  cases known

theorem step_cmp (found : m.fetch w target.size source = some value) :
    ∃ next, step w m (.binary .cmp (.reg target) source) = some next ∧ next.reg = m.reg ∧
      next.memory = m.memory ∧ next.flags =
        Flags.ofDifference ((m.reg target.family).setWidth (8 * target.size.toNat))
        (value.setWidth (8 * target.size.toNat)) := by
  have computed : m.general w .cmp target source =
      some (m.reg target.family,
        Flags.ofDifference ((m.reg target.family).setWidth (8 * target.size.toNat))
          (value.setWidth (8 * target.size.toNat))) := by
    simp [general, found]
  refine ⟨_, step_general w m working (by decide) computed, ?_, rfl, rfl⟩
  funext fam
  simp only [update, set]
  split
  · rename_i same
    rw [same]
  · rfl

theorem step_single (computes : mn ≠ .push ∧ mn ≠ .pop ∧ mn ≠ .mul ∧ mn ≠ .div ∧ mn ≠ .idiv)
    (found : m.single w mn target = some res) :
    step w m (.unary mn (.reg target)) = some (m.update target.family res) := by
  obtain ⟨pushes, pops, multiplies, divides, signed⟩ := computes
  cases mn <;> simp_all [step, working.general, working.aside]

theorem step_neg :
    ∃ next, step w m (.unary .neg (.reg target)) = some next ∧
      Wrote target (-m.reg target.family) m next :=
  ⟨_, step_single w m working (by decide) rfl, .of_update⟩

theorem step_not :
    ∃ next, step w m (.unary .not (.reg target)) = some next ∧
      Wrote target (~~~m.reg target.family) m next :=
  ⟨_, step_single w m working (by decide) rfl, .of_update⟩

theorem step_condition {mn : Mnemonic} {cond : Flags → Bool} (known : mn.condition? = some cond)
    (byte : target.size = 1) :
    ∃ next, step w m (.unary mn (.reg target)) = some next ∧
      Wrote target (if cond m.flags then 1 else 0) m next := by
  have found : m.single w mn target =
      some (blend target.size.toNat (m.reg target.family)
        (if cond m.flags then 1 else 0), m.flags) := by
    cases mn with
    | sete | setne | setl | setle | setg | setge | setb | setbe | seta | setae =>
      simp [single, known, byte]
    | _ => cases known
  refine ⟨_, step_single w m working ?_ found, .of_update⟩
  cases mn with
  | sete | setne | setl | setle | setg | setge | setb | setbe | seta | setae => decide
  | _ => cases known

end

theorem push_runs (working : r.Working float) (fits : 8 ≤ m.room) :
    ∃ next, run w (pushCode r) m = some next ∧ Pushed r m next := by
  have stepped : ∃ next, run w (pushCode r) m = some next := by
    have class_ := working.isFloat
    cases float with
    | false =>
      have wide : (r.resize 8).Working false := ⟨working.family, rfl⟩
      simp [pushCode, class_, run, step, wide.general, push?, fits]
    | true =>
      have eight : (8 : Int64).toInt = 8 := rfl
      simp [pushCode, class_, run, step, binary, Register.stackPointer, reserve?, eight, fits,
        storeRegister, isStore]
  obtain ⟨next, ran⟩ := stepped
  exact ⟨next, ran, pushed_of_run ran⟩

theorem pop_runs (working : r.Working float) : ∃ next, run w (popCode r) m =
    some next ∧ Popped r m next := by
  have stepped : ∃ next, run w (popCode r) m = some next := by
    have class_ := working.isFloat
    cases float with
    | false =>
      have wide : (r.resize 8).Working false := ⟨working.family, rfl⟩
      simp [popCode, class_, run, step, wide.general, working.aside]
    | true =>
      have general : r.isGeneral = false := by simp [Register.isGeneral, class_]
      simp [popCode, class_, run, step, binary, working.aside, computed, general, floating,
        floatOperand, Register.stackPointer]
  obtain ⟨next, ran⟩ := stepped
  exact ⟨next, ran, popped_of_run working.ordinary ran⟩

theorem save_runs (working : ∀ r ∈ saved, r.Working false) (fits : 8 * saved.length ≤ m.room) :
    ∃ next, run w (saveCode saved) m = some next ∧ ∀ family, family ≠ .rsp →
      next.reg family = m.reg family := by
  induction saved generalizing m with
  | nil => exact ⟨m, rfl, fun _ _ => rfl⟩
  | cons r rest ih =>
    simp only [List.length_cons] at fits
    obtain ⟨middle, pushes, pushed⟩ := push_runs w m
      (working r List.mem_cons_self) (by omega)
    have left : 8 * rest.length ≤ middle.room := by
      rw [pushed.room]
      omega
    obtain ⟨next, saves, same⟩ := ih middle
      (fun other member => working other (List.mem_cons_of_mem _ member)) left
    refine ⟨next, run_join pushes saves, fun family aside => ?_⟩
    rw [same family aside, pushed.registers family aside]

theorem restore_runs (working : ∀ r ∈ saved, r.Working false) :
    ∃ next, run w (restoreCode saved) m = some next ∧ ∀ family, family ≠ .rsp →
      (∀ r ∈ saved, r.family ≠ family) → next.reg family = m.reg family := by
  induction saved with
  | nil => exact ⟨m, rfl, fun _ _ _ => rfl⟩
  | cons r rest ih =>
    obtain ⟨middle, restores, same⟩ := ih fun other member =>
      working other (List.mem_cons_of_mem _ member)
    obtain ⟨next, pops, popped⟩ := pop_runs w middle
      (working r List.mem_cons_self)
    have shape : restoreCode (r :: rest) = restoreCode rest ++ popCode r := by
      simp [restoreCode]
    refine ⟨next, shape ▸ run_join restores pops, fun family aside apart => ?_⟩
    rw [popped.registers family aside (Ne.symm (apart r List.mem_cons_self)),
      same family aside fun other member => apart other (List.mem_cons_of_mem _ member)]

theorem step_mul (working : operand.Working false) (wide : operand.size = 4 ∨ operand.size = 8) :
    ∃ next high, step w m (.unary .mul (.reg operand)) = some next ∧
      Paired operand.size high ((m.reg .rax).setWidth (8 * operand.size.toNat) *
        (m.reg operand.family).setWidth (8 * operand.size.toNat)) m next := by
  have stepped : step w m (.unary .mul (.reg operand)) = m.paired w .mul operand :=
    by simp [step]
  rw [stepped]
  simp only [paired, working.general, wide, and_self, if_true, Option.pure_def, Option.some.injEq]
  refine ⟨_, (multiply ((m.reg .rax).setWidth _) ((m.reg operand.family).setWidth _)).1,
    rfl, ?_⟩
  rw [← multiply_low]
  exact .of_write

/-- A division faults where there is no result. -/
theorem step_division {operand : Register} {outcome : Option (BitVec (8 * operand.size.toNat) × _)}
    (working : operand.Working false) (wide : operand.size = 4 ∨ operand.size = 8) (divided : divide?
    signed ((m.reg .rdx).setWidth _) ((m.reg .rax).setWidth _) ((m.reg operand.family).setWidth _) =
    outcome) : let stepped := step w m (.unary (if signed then .idiv else .div) (.reg operand));
    outcome.elim (stepped = none) fun halves => ∃ next, stepped = some next ∧
      Paired operand.size halves.2 halves.1 m next := by
  have stepped : step w m (.unary (if signed then .idiv else .div) (.reg operand)) =
      m.paired w (if signed then .idiv else .div) operand := by
    cases signed <;> simp [step]
  dsimp only
  rw [stepped]
  cases signed
  all_goals
    simp only [paired, working.general, wide, and_self, if_true, Bool.false_eq_true, if_false,
      reduceCtorEq, decide_true, decide_false, divided, Option.pure_def]
    cases outcome with
    | none => rfl
    | some halves => exact ⟨_, rfl, .of_write⟩

/-- Extending the accumulator fills the other half of the double register with its sign. -/
theorem step_signFill {size : Int} (wide : size = 4 ∨ size = 8) :
    ∃ next, step w m (.plain (if size == 8 then .cqo else .cdq)) = some next ∧
      (next.reg .rdx).setWidth (8 * size.toNat) =
        (if ((m.reg .rax).setWidth (8 * size.toNat)).msb then BitVec.allOnes _ else 0) ∧
      ∀ family, family ≠ .rdx → next.reg family = m.reg family := by
  rcases wide with rfl | rfl
  · refine ⟨_, rfl, ?_, fun family apart => if_neg apart⟩
    have content : (m.write ⟨.rdx, 4⟩ ((extend true 4 (m.reg .rax)).sshiftRight
        63)).reg .rdx = low 4 ((extend true 4 (m.reg .rax)).sshiftRight 63) := rfl
    have half : (4 : Int).toNat = 4 := rfl
    rw [content, half, setWidth_low, sshiftRight_sign, msb_extend (by decide)]
    split
    · rfl
    · rfl
  · refine ⟨_, rfl, ?_, fun family apart => if_neg apart⟩
    have content : (m.write ⟨.rdx, 8⟩ ((m.reg .rax).sshiftRight 63)).reg .rdx =
        (m.reg .rax).sshiftRight 63 := blend_eight
    rw [content, sshiftRight_sign]
    simp

end

end Machine
end Nasm64
