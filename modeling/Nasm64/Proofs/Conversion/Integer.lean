import Nasm64.Proofs.Lower.Prefixed
import Nasm64.Proofs.Machine.Forward

/-! Conversions between integers, booleans and addresses. Main statement: wherever the value is, what
a rule of the table leaves is the same number at the target type, and only the destination and the
scratch register change. -/
namespace Nasm64

open Machine

namespace Register

variable {r : Register}

theorem isGeneral_iff : r.isGeneral = true ↔ r.family ∈ Family.general ∧
    (r.size = 1 ∨ r.size = 2 ∨ r.size = 4 ∨ r.size = 8) := by
  obtain ⟨fam, size⟩ := r
  cases fam <;>
    simp [isGeneral, valid, isFloat, Family.isFloat, Family.hasView, Family.general, or_assoc]

theorem isGeneral_resize (general : r.isGeneral = true) {size : Int}
    (width : size = 1 ∨ size = 2 ∨ size = 4 ∨ size = 8) : (r.resize size).isGeneral = true :=
  isGeneral_iff.mpr ⟨(isGeneral_iff.mp general).1, width⟩

end Register

namespace Machine

variable {w : World} {m mid next : Machine} {tgt : Register} {src : Operand}
  {v : BitVec 64}

theorem read_general (general : tgt.isGeneral = true) (sized : tgt.size = size) :
    m.read w size (.reg tgt) = some (m.view tgt) := by
  simp [read, fetch, general, sized]

/-- Runs instructions that write registers. The stack pointer is written like any other. -/
def execute (world : World) : Code → Machine → Option Machine
  | [], machine => some machine
  | .binary mnemonic (.reg target) source :: rest, machine =>
    ((machine.computed world mnemonic target source).map (machine.update target.family)).bind
      (execute world rest)
  | _ :: _, _ => none

theorem computed_xchg : m.computed w .xchg tgt src = none := by
  unfold computed
  split
  · rfl
  · split
    · simp [floating]
    · rfl

theorem run_of_execute (executed : m.execute w code = some next)
    (aside : ∀ mn tgt src, .binary mn (.reg tgt) src ∈ code → tgt.family ≠ .rsp) :
    m.run w code = some next := by
  induction code generalizing m with
  | nil => exact executed
  | cons line rest ih =>
    unfold execute at executed
    split at executed
    · contradiction
    · next mn tgt src _ same =>
      cases same
      obtain ⟨mid, computed, ran⟩ := Option.bind_eq_some_iff.mp executed
      have plain : mn ≠ .xchg := by
        rintro rfl
        simp [computed_xchg] at computed
      refine run_cons ?_ (ih ran fun _ _ _ mem => aside _ _ _ (List.mem_cons_of_mem _ mem))
      simp only [step, binary, aside _ _ _ List.mem_cons_self, plain, if_false, computed]
    · cases executed

theorem execute_general (general : tgt.isGeneral = true)
    (computed : m.general w mn tgt src =
      some (Word.blend tgt.size.toNat (m.reg tgt.family) word, m.flags))
    (rest : Code) :
    ∃ mid, Wrote tgt word m mid ∧ m.execute w (.binary mn (.reg tgt) src :: rest) =
      mid.execute w rest := by
  have wrote : Wrote tgt word m (m.update tgt.family
    (Word.blend tgt.size.toNat (m.reg tgt.family) word, m.flags)) := .of_update
  refine ⟨_, wrote, ?_⟩
  simp only [execute, Machine.computed, general, if_true, computed, Option.map_some, Option.bind_some]

/-- A register holds a value. Nothing else changed but the scratch register and the flags. -/
structure Leaves (target : Register) (value : BitVec 64) (before after : Machine) : Prop where
  view : after.view target = value
  others : ∀ family, family ≠ target.family → family ≠ .r11 → after.reg family = before.reg family
  memory : after.memory = before.memory

theorem Wrote.leaves (wrote : Wrote tgt v m next) : Leaves tgt (Word.low tgt.size.toNat v) m next :=
  ⟨wrote.view, fun fam apart _ => wrote.others fam apart, wrote.memory⟩

end Machine

namespace Conversion

def doubling (signed : Bool) (destination : Register) (operand : Operand) : Line :=
  if signed then .binary .movsxd (.reg (destination.resize 8)) operand
  else .mov (.reg (destination.resize 4)) operand

def widening (source target : Primitive) (operand : Operand) (destination : Register) : Code :=
  let half := Register.scratch.resize 4
  if source.bytes = 4 then
    if source.isSigned = target.isSigned then [doubling source.isSigned destination operand]
    else [.mov (.reg half) operand, doubling source.isSigned destination (.reg half)]
  else
    [.binary (if source.isSigned then .movsx else .movzx) (.reg (destination.resize target.bytes))
      operand]

variable {src tgt : Primitive} {destination : Register}

theorem bytes_cases (prim : Primitive) : prim.bytes = 1 ∨ prim.bytes = 2 ∨
    prim.bytes = 4 ∨ prim.bytes = 8 := by
  cases prim <;> decide

theorem between_integers (numbers : src.isInteger = true ∨ src = .bool)
    (integer : tgt.isInteger = true) (differs : src ≠ tgt) :
    between (.prim src) (.prim tgt) = .ok (integerRule src tgt) := by
  cases tgt <;> first
    | exact absurd integer (by decide)
    | cases src <;> first
      | exact absurd numbers (by decide)
      | exact absurd rfl differs
      | rfl

theorem apply_reviews (reviews : rule.kind = .review) : apply given wanted rule origin destination =
    review wanted origin := by
  simp only [apply, reviews]

theorem integerRule_reviews (narrower : tgt.bytes ≤ src.bytes) :
    (integerRule src tgt).kind = .review := by
  simp only [integerRule, if_pos narrower]

theorem apply_extends (wider : src.bytes < tgt.bytes) (origin : Source) :
    apply (.prim src) (.prim tgt) (integerRule src tgt) origin destination =
      match origin with
      | .constant v => .inline (.imm (Word.fold v src.bytes src.isSigned))
      | _ => .value (widening src tgt origin.operand destination)
        (destination.resize tgt.bytes) := by
  cases src <;> cases tgt <;> first
    | exact absurd wider (by decide)
    | cases origin <;> rfl

section Widening

variable {w : World} {m : Machine} {opnd : Operand} {v : BitVec 64}

theorem doubling_executes (signed : Bool) (general : (destination.resize 8).isGeneral = true)
    (sized : width? opnd = some 4) (found : m.read w 4 opnd = some v) :
    ∃ after, m.execute w [doubling signed destination opnd] = some after ∧
      Machine.Leaves (destination.resize 8) (Word.extend signed 4 v) m after := by
  cases signed with
  | true =>
    obtain ⟨after, wrote, executed⟩ := execute_general general
      (general_extension w m (rfl : Mnemonic.movsxd.extension? = some true) sized
        (by simp) found) []
    exact ⟨after, executed, wrote.view.trans Word.low_eight, wrote.leaves.others, wrote.memory⟩
  | false =>
    have half : (destination.resize 4).isGeneral = true := Register.isGeneral_resize general (by simp)
    obtain ⟨after, wrote, executed⟩ :=
      execute_general half (general_mov w m found) []
    have content : after.reg destination.family = Word.low 4 v := wrote.content_half rfl
    refine ⟨after, executed, ?_, wrote.leaves.others, wrote.memory⟩
    rw [view, Register.resize_family, content]
    exact Word.low_eight

/-- Widening code leaves the value, extended by the sign of its source, in the destination. -/
theorem widening_executes (general : (destination.resize tgt.bytes).isGeneral = true)
    (wider : src.bytes < tgt.bytes) (sized : width? opnd = some (src.bytes : Int))
    (found : m.read w src.bytes opnd = some v) :
    ∃ after, m.execute w (widening src tgt opnd destination) = some after ∧
      Leaves (destination.resize tgt.bytes)
        (Word.low tgt.bytes (Word.extend src.isSigned src.bytes v)) m after := by
  unfold widening
  by_cases half : src.bytes = 4
  · rw [half] at wider sized found ⊢
    have whole : tgt.bytes = 8 := by
      cases tgt <;> first
        | rfl
        | exact absurd wider (by decide)
    rw [whole] at general ⊢
    rw [if_pos rfl, Word.low_eight]
    split
    · exact doubling_executes src.isSigned general sized found
    · -- by way of the scratch register
      have scratch : (Register.scratch.resize 4).isGeneral = true := rfl
      obtain ⟨mid, wrote, staged⟩ := execute_general scratch
        (general_mov w m found)
        [doubling src.isSigned destination (.reg (Register.scratch.resize 4))]
      have loaded : mid.read w 4 (.reg (Register.scratch.resize 4)) = some v :=
        congrArg some (wrote.view.trans (read_low found))
      obtain ⟨after, executed, leaves⟩ := doubling_executes src.isSigned general rfl loaded
      refine ⟨after, staged.trans executed, leaves.view, ?_, leaves.memory.trans wrote.memory⟩
      intro fam apart unstaged
      exact (leaves.others fam apart unstaged).trans (wrote.others fam unstaged)
  · rw [if_neg half]
    have known : (if src.isSigned then Mnemonic.movsx else .movzx).extension? =
        some src.isSigned := by cases src.isSigned <;> rfl
    obtain ⟨after, wrote, executed⟩ := execute_general general
      (general_extension w m known sized
        (show (src.bytes : Int) < (destination.resize tgt.bytes).size from
          Int.ofNat_lt.mpr wider) found) []
    exact ⟨after, executed, wrote.leaves⟩

theorem widening_aside (aside : destination.family ≠ .rsp) (mn : Mnemonic) (written : Register)
    (origin : Operand)
    (mem : .binary mn (.reg written) origin ∈ widening src tgt opnd destination) :
    written.family ≠ .rsp := by
  unfold widening doubling at mem
  repeat' split at mem
  all_goals simp [Line.mov, Register.scratch] at mem
  all_goals grind [Register.resize]

end Widening

end Conversion

/-- The number that a word stands for at a type. -/
def Scalar.number (scalar : Scalar) (word : BitVec 64) : Int :=
  let bits := word.setWidth (8 * scalar.bytes)
  if scalar.isSigned then bits.toInt else bits.toNat

def Word.ofNumber (bytes : Nat) (number : Int) : BitVec 64 := (BitVec.ofInt (8 * bytes) number).setWidth 64

theorem Word.low_extend_number (given : Scalar) (narrow : bytes ≤ 8) (word : BitVec 64) :
    low bytes (extend given.isSigned given.bytes word) = ofNumber bytes (given.number word) := by
  have bits : (extend given.isSigned given.bytes word).setWidth (8 * bytes) =
      BitVec.ofInt (8 * bytes) (given.number word) := by
    unfold extend Scalar.number
    split
    · refine BitVec.eq_of_getLsbD_eq fun bit inside => ?_
      change _ = (BitVec.signExtend _ _).getLsbD bit
      rw [BitVec.getLsbD_setWidth, BitVec.getLsbD_signExtend, BitVec.getLsbD_signExtend]
      simp [inside, show bit < 64 by omega]
    · rw [BitVec.ofInt_natCast, BitVec.ofNat_toNat, low, BitVec.setWidth_setWidth_of_le _ (by omega)]
  exact congrArg (BitVec.setWidth 64) bits

/-- A world in which labels are at the start of memory and nothing is computed. -/
def World.idle : World := ⟨fun _ => 0, fun _ _ _ => default, fun _ _ _ => 0, fun _ machine => machine⟩

/-- A machine with one word in every register and nothing in memory. -/
def Machine.uniform (word : BitVec 64) : Machine := ⟨fun _ => word, fun _ => 0, default, 0, []⟩

namespace Conversion

/-- A place that holds a value of that many bytes outside the float registers. -/
def Source.Holds (bytes : Nat) : Source → Prop
  | .register place => place.isGeneral = true ∧ place.size = bytes
  | .memory size _ => size = bytes
  | .constant _ => True

def Entry.widens : Entry Scalar Rule → Bool
  | ⟨.prim source, .prim target, rule⟩ => source.bytes < target.bytes && rule == integerRule source target
  | _ => false

theorem standard_integral :
    ∀ entry ∈ standard, entry.source.isFloat = false → entry.target.isFloat = false →
      entry.rule.kind = .review ∧ entry.target.bytes ≤ entry.source.bytes ∨
      entry.widens = true := by
  decide

theorem scalar_bytes_cases (scalar : Scalar) : scalar.bytes = 1 ∨ scalar.bytes = 2 ∨
    scalar.bytes = 4 ∨ scalar.bytes = 8 := by
  cases scalar with
  | prim primitive => exact bytes_cases primitive
  | ptr => exact .inr (.inr (.inr rfl))

variable {w : World} {m : Machine} {given wanted : Scalar} {origin : Source}
  {destination : Register}

theorem Source.Holds.read (holds : origin.Holds bytes) (w : World) (m : Machine) : ∃ word,
    m.read w bytes origin.operand = some word := by
  cases origin with
  | register place => exact ⟨_, read_general holds.1 holds.2⟩
  | memory size addr => simp [Source.operand, Machine.read, Machine.fetch, show size = _ from holds]
  | constant v => exact ⟨_, rfl⟩

theorem Source.Holds.width (holds : origin.Holds bytes) : (∃ v, origin = .constant v) ∨
    width? origin.operand = some (bytes : Int) := by
  cases origin with
  | register place => exact .inr (congrArg some holds.2)
  | memory size addr => exact .inr (congrArg some holds)
  | constant v => exact .inl ⟨v, rfl⟩

/-- What a conversion gives: an operand with a value, in a machine that differs in nothing but the
destination and the scratch register. -/
structure Gives (world : World) (machine : Machine) (destination : Register) (bytes : Nat)
    (value : BitVec 64) (fragment : Lowered) (after : Machine) : Prop where
  executed : machine.execute world fragment.code = some after
  runs : destination.family ≠ .rsp → machine.run world fragment.code = some after
  value : ∃ operand, fragment.operand? .reg = some operand ∧
    after.read world bytes operand = some value
  others : ∀ family, family ≠ destination.family → family ≠ .r11 →
    after.reg family = machine.reg family
  memory : after.memory = machine.memory

theorem Gives.inline {opnd : Operand} {bytes : Nat} {v : BitVec 64}
    (read : m.read w bytes opnd = some v) : Gives w m destination bytes v (.inline opnd) m :=
  ⟨rfl, fun _ => rfl, ⟨opnd, rfl, read⟩, fun _ _ _ => rfl, rfl⟩

theorem review_gives (holds : origin.Holds given.bytes) (narrower : wanted.bytes ≤ given.bytes)
    {word : BitVec 64} (found : m.read w given.bytes origin.operand = some word) :
    Gives w m destination wanted.bytes (Word.low wanted.bytes word) (review wanted origin) m := by
  cases origin with
  | register place =>
    have width : (wanted.bytes : Int) = 1 ∨ (wanted.bytes : Int) = 2 ∨ (wanted.bytes : Int) = 4 ∨
        (wanted.bytes : Int) = 8 := by exact_mod_cast scalar_bytes_cases wanted
    cases (read_general holds.1 holds.2).symm.trans found
    refine ⟨rfl, fun _ => rfl, ⟨_, rfl, ?_⟩, fun _ _ _ => rfl, rfl⟩
    refine (read_general (Register.isGeneral_resize holds.1 width) rfl).trans
      (congrArg some ?_)
    rw [view, view, holds.2]
    exact (Word.low_low narrower).symm
  | memory size addr =>
    cases holds
    simp only [Source.operand, Machine.read, Machine.fetch, beq_self_eq_true, if_true,
      Option.some.injEq] at found
    subst found
    refine .inline ?_
    simp only [Machine.read, Machine.fetch, beq_self_eq_true, if_true]
    exact congrArg some (Memory.low_load narrower).symm
  | constant v =>
    cases found
    refine .inline (congrArg some ?_)
    rw [Int.toNat_natCast, Int.toNat_natCast, Word.toBitVec_fold (scalar_bytes_cases wanted),
      Word.low_extend (Nat.le_refl _), Word.low_low narrower]

theorem widening_gives {src tgt : Primitive} (holds : origin.Holds src.bytes)
    (wider : src.bytes < tgt.bytes) (general : destination.isGeneral = true)
    (sized : destination.size = tgt.bytes) {word : BitVec 64}
    (found : m.read w src.bytes origin.operand = some word) :
    ∃ after, Gives w m destination tgt.bytes
      (Word.low tgt.bytes (Word.extend src.isSigned src.bytes word))
      (apply (.prim src) (.prim tgt) (integerRule src tgt) origin destination) after := by
  have whole : destination.resize tgt.bytes = destination := by rw [← sized]; rfl
  rw [apply_extends wider]
  rcases holds.width with ⟨v, rfl⟩ | width
  · cases found
    refine ⟨m, .inline (congrArg some ?_)⟩
    rw [Int.toNat_natCast, Int.toNat_natCast, Word.extend_low, Word.toBitVec_fold (bytes_cases src)]
  · obtain ⟨after, executed, leaves⟩ := widening_executes (whole.symm ▸ general) wider width found
    refine ⟨after, ?_⟩
    have gives : Gives w m destination tgt.bytes
        (Word.low tgt.bytes (Word.extend src.isSigned src.bytes word))
        (.value (widening src tgt origin.operand destination) (destination.resize tgt.bytes))
        after := {
      executed := executed
      runs := fun aside => Machine.run_of_execute executed (widening_aside aside)
      value := ⟨_, rfl, (Machine.read_general (whole.symm ▸ general) rfl).trans
        (congrArg some leaves.view)⟩
      others := leaves.others
      memory := leaves.memory }
    cases origin with
    | constant v => cases width
    | register | memory => exact gives

/-- A value is converted to the number of the target type that it is congruent to. -/
theorem integer_conversion_exact {source target : Ty} {rule : Rule}
    (typed : source.scalar? = some given ∧ target.scalar? = some wanted)
    (whole : given.isFloat = false ∧ wanted.isFloat = false)
    (accepted : between source target = .ok rule) (holds : origin.Holds given.bytes)
    (sized : destination.isGeneral = true ∧ destination.size = wanted.bytes) (world : World)
    (machine : Machine) :
    ∃ fragment word after, convert source target origin destination = .ok fragment ∧
      machine.read world given.bytes origin.operand = some word ∧
      Gives world machine destination wanted.bytes
        (Word.ofNumber wanted.bytes (given.number word)) fragment after := by
  obtain ⟨word, found⟩ := holds.read world machine
  have narrow : wanted.bytes ≤ 8 := by
    rcases scalar_bytes_cases wanted with same | same | same | same <;> omega
  obtain ⟨_, _, sourced, aimed, listed⟩ := between_listed accepted
  cases typed.1.symm.trans sourced
  cases typed.2.symm.trans aimed
  have converted := convert_eq accepted origin destination
  rw [sourced, aimed, Option.getD_some, Option.getD_some] at converted
  have number := Word.low_extend_number given narrow word
  rcases standard_integral _ listed whole.1 whole.2 with ⟨reviews, narrower⟩ | widens
  · rw [apply_reviews reviews] at converted
    rw [Word.low_extend narrower] at number
    exact ⟨_, word, machine, converted, found, number ▸ review_gives holds narrower found⟩
  · unfold Entry.widens at widens
    split at widens
    · next same =>
      cases same
      simp only [Bool.and_eq_true, decide_eq_true_eq, beq_iff_eq] at widens
      obtain ⟨wider, rfl⟩ := widens
      obtain ⟨after, gives⟩ := widening_gives holds wider sized.1 sized.2 found
      exact ⟨_, word, after, converted, found, number ▸ gives⟩
    · cases widens

/-- A negative number of 32 bits, staged in the register that it comes from. -/
theorem integer_conversion_exact_staged : ∃ fragment after,
    convert (.prim .i32) (.prim .u64) (.register ⟨.r11, 4⟩) ⟨.r11, 8⟩ = .ok fragment ∧
    Gives .idle (.uniform 0x12345678fffffffe) ⟨.r11, 8⟩ 8 (Word.ofNumber 8 (-2)) fragment after := by
  have typed : (Ty.prim .i32).scalar? = some (.prim .i32) ∧
    (Ty.prim .u64).scalar? = some (.prim .u64) := ⟨rfl, rfl⟩
  obtain ⟨fragment, word, after, converted, found, gives⟩ := integer_conversion_exact typed
    ⟨rfl, rfl⟩ rfl (show Source.Holds 4 (.register ⟨.r11, 4⟩) from ⟨rfl, rfl⟩)
    (show Register.isGeneral ⟨.r11, 8⟩ = true ∧ (⟨.r11, 8⟩ : Register).size = 8 from ⟨rfl, rfl⟩)
    .idle (.uniform 0x12345678fffffffe)
  cases found
  exact ⟨fragment, after, converted, gives⟩

end Conversion
end Nasm64
