import Nasm64.Proofs.Machine.Step
import Nasm64.Proofs.Stack.Displacement

/-! Bracketed code leaves the machine as it was, but for the registers it may change, the free stack
and the frame slots it stores to. -/
namespace Nasm64

namespace Line

/-- The displacement from the frame pointer and the size of a frame slot that a line stores to. -/
def frameStore? : Line → Option (Int64 × Int)
  | binary _ (.mem size ⟨.reg ⟨.rbp, 8⟩, displacement, none⟩) (.reg _) => some (displacement, size)
  | _ => none

end Line

/-- Whether code stores to a byte by way of the frame pointer. -/
def Code.storesTo (code : Code) (base byte : BitVec 64) : Prop :=
  ∃ line ∈ code, ∃ displacement size, line.frameStore? = some (displacement, size) ∧
    Memory.covers (base + displacement.toBitVec) size.toNat byte

namespace Machine

/-- Two states that differ in some registers and some bytes at most. -/
structure Agrees (changes : Family → Prop) (touches : BitVec 64 → Prop) (before after : Machine) :
    Prop where
  registers : ∀ family, ¬ changes family → after.reg family = before.reg family
  memory : ∀ byte, ¬ touches byte → after.memory byte = before.memory byte
  floor : after.floor = before.floor
  blocks : after.blocks = before.blocks

variable {w : World} {m mid next : Machine} {changes wider : Family → Prop}
  {touches more : BitVec 64 → Prop}

namespace Agrees

theorem refl (m : Machine) : Agrees changes touches m m :=
  ⟨fun _ _ => rfl, fun _ _ => rfl, rfl, rfl⟩

theorem trans (first : Agrees changes touches m mid)
    (second : Agrees changes touches mid next) : Agrees changes touches m next where
  registers := fun fam kept => (second.registers fam kept).trans (first.registers fam kept)
  memory := fun byte kept => (second.memory byte kept).trans (first.memory byte kept)
  floor := second.floor.trans first.floor
  blocks := second.blocks.trans first.blocks

theorem mono (agrees : Agrees changes touches m next) (includes : ∀ fam, changes fam → wider fam)
    (reaches : ∀ byte, touches byte → more byte) : Agrees wider more m next :=
  ⟨fun fam kept => agrees.registers fam fun changed => kept (includes fam changed),
    fun byte kept => agrees.memory byte fun touched => kept (reaches byte touched),
    agrees.floor, agrees.blocks⟩

theorem set (changed : changes fam) : Agrees changes touches m (m.set fam v) where
  registers := fun other kept => if_neg (by rintro rfl; exact kept changed)
  memory := fun _ _ => rfl
  floor := rfl
  blocks := rfl

theorem setFlags (agrees : Agrees changes touches m next) (flags : Flags) :
    Agrees changes touches m { next with flags } :=
  ⟨agrees.registers, agrees.memory, agrees.floor, agrees.blocks⟩

end Agrees

theorem general_test {mn : Mnemonic} {dst : Register} {src : Operand} {content : BitVec 64}
    {flags : Flags} (tests : mn.isTest = true)
    (res : m.general w mn dst src = some (content, flags)) : content = m.reg dst.family := by
  cases mn with
  | cmp | test =>
    simp only [general, Option.bind_eq_bind, Option.bind_eq_some_iff, Option.pure_def,
      Option.some.injEq, Prod.mk.injEq] at res
    obtain ⟨_, _, rfl, _⟩ := res
    rfl
  | comiss | comisd => simp [general, Mnemonic.arithmetic?] at res
  | _ => cases tests

theorem floating_test {mn : Mnemonic} {dst : Register} {src : Operand} {content : BitVec 64}
    {flags : Flags} (tests : mn.isTest = true)
    (res : m.floating w mn dst src = some (content, flags)) : content = m.reg dst.family := by
  simp only [floating, Option.bind_eq_bind, Option.bind_eq_some_iff] at res
  obtain ⟨_, _, res⟩ := res
  cases mn with
  | comiss | comisd =>
    simp only [Option.pure_def, Option.some.injEq, Prod.mk.injEq] at res
    exact res.1.symm
  | cmp | test => simp at res
  | _ => cases tests

theorem binary_agrees {mn : Mnemonic} {dst : Register} {src : Operand}
    (ord : dst.family.isOrdinary = true) (plain : mn ≠ .xchg)
    (step : m.binary w mn dst src = some next) (writes : mn.isTest = false → changes dst.family) :
    Agrees changes touches m next := by
  have aside : dst.family ≠ .rsp := by
    intro same
    simp [same, Family.isOrdinary] at ord
  simp only [binary, if_neg aside, if_neg plain, Option.map_eq_some_iff] at step
  obtain ⟨⟨content, flags⟩, res, rfl⟩ := step
  refine Agrees.setFlags ?_ flags
  cases tests : mn.isTest with
  | false => exact .set (writes tests)
  | true =>
    have same : content = m.reg dst.family := by
      unfold computed at res
      split at res
      · exact general_test tests res
      · split at res
        · exact floating_test tests res
        · cases res
    refine ⟨fun fam _ => ?_, fun _ _ => rfl, rfl, rfl⟩
    simp only [set, same]
    split
    · rename_i equal
      rw [equal]
    · rfl

theorem paired_agrees (step : m.paired w mn opnd = some next) (low : changes .rax)
    (high : changes .rdx) : Agrees changes touches m next := by
  have pair : ∀ (size : Int) (first second : BitVec 64) (flags : Flags),
      Agrees changes touches m
        { (m.write ⟨.rax, size⟩ first).write ⟨.rdx, size⟩ second with flags } :=
    fun size first second flags => ((Agrees.set low).trans (.set high)).setFlags flags
  simp only [paired] at step
  split at step
  · split at step
    · cases step
      exact pair _ _ _ _
    · simp only [Option.bind_eq_bind, Option.bind_eq_some_iff, Option.pure_def,
        Option.some.injEq] at step
      obtain ⟨_, _, rfl⟩ := step
      exact pair _ _ _ _
    · simp only [Option.bind_eq_bind, Option.bind_eq_some_iff, Option.pure_def,
        Option.some.injEq] at step
      obtain ⟨_, _, rfl⟩ := step
      exact pair _ _ _ _
    · cases step
  · cases step

theorem storeRegister_agrees {mn : Mnemonic} {size : Int} {addr : Address} {src : Register}
    (step : m.storeRegister w mn size addr src = some next)
    (reaches : ∀ byte, Memory.covers (m.address w addr) size.toNat byte → touches byte) :
    Agrees changes touches m next := by
  simp only [storeRegister] at step
  split at step
  · cases step
    exact ⟨fun _ _ => rfl,
      fun byte kept => Memory.store_apart fun covered => kept (reaches byte covered), rfl, rfl⟩
  · cases step

theorem xchg_agrees (step : m.binary w .xchg first (.reg second) = some next)
    (left : changes first.family) (right : changes second.family) : Agrees changes touches m next :=
    by
  simp only [binary, if_true] at step
  split at step
  · cases step
  · split at step
    · cases step
      exact (Agrees.set left).trans (.set right)
    · cases step

theorem single_agrees (computes : mn.isUnaryComputation = true)
    (step : step w m (.unary mn (.reg dst)) = some next)
    (writes : ∀ fam ∈ (Line.unary mn (.reg dst)).writes, changes fam) :
    Agrees changes touches m next := by
  cases mn with
  | mul | div | idiv =>
    simp only [Machine.step, true_or, or_true, if_true] at step
    exact paired_agrees step (writes _ (by simp [Line.writes])) (writes _ (by simp [Line.writes]))
  | neg | not | sete | setne | setl | setle | setg | setge | setb | setbe | seta | setae =>
    have changed : changes dst.family := writes _ (by simp [Line.writes])
    simp only [Machine.step, reduceCtorEq, or_self, if_false] at step
    split at step
    · obtain ⟨⟨content, flags⟩, _, rfl⟩ := Option.map_eq_some_iff.mp step
      exact (Agrees.set changed).setFlags flags
    · cases step
  | _ => cases computes

theorem quiet_store {mn : Mnemonic} {size : Int} {addr : Address} {src : Operand}
    (quiet : (Line.binary mn (.mem size addr) src).isQuiet = true) :
    ∃ disp r, addr = ⟨.reg ⟨.rbp, 8⟩, disp, none⟩ ∧ src = .reg r := by
  unfold Line.isQuiet at quiet
  split at quiet
  case h_5 same =>
    cases same
    exact ⟨_, _, rfl, rfl⟩
  case h_6 => cases quiet
  all_goals
    rename_i same
    cases same

/-- Quiet lines change the registers they write and the frame slot they store to. -/
theorem quiet_agrees {line : Line} (quiet : line.isQuiet = true)
    (stepped : step w m line = some next) (writes : ∀ fam ∈ line.writes, changes fam)
    (reaches : ∀ byte, Code.storesTo [line] (m.reg .rbp) byte → touches byte) :
    Agrees changes touches m next := by
  cases line with
  | plain mn =>
    cases mn with
    | cqo | cdq =>
      cases stepped
      exact .set (writes _ (by simp [Line.writes]))
    | _ => cases quiet
  | unary mn opnd =>
    cases opnd with
    | reg dst =>
      simp only [Line.isQuiet, Bool.and_eq_true] at quiet
      exact single_agrees quiet.1 stepped writes
    | imm | mem | place | symbol => cases mn <;> cases quiet
  | binary mn dst src =>
    cases dst with
    | reg dst =>
      by_cases exchanges : mn = .xchg
      · subst exchanges
        cases src with
        | reg other =>
          exact xchg_agrees stepped (writes _ (by simp [Line.writes]))
            (writes _ (by simp [Line.writes]))
        | imm | mem | place | symbol => cases quiet
      · have ord : dst.family.isOrdinary = true := by
          cases mn <;> simp_all [Line.isQuiet]
        refine binary_agrees ord exchanges stepped fun changing => writes _ ?_
        cases mn <;> simp_all [Line.writes, Mnemonic.isTest]
    | mem size address =>
      obtain ⟨disp, r, rfl, rfl⟩ := quiet_store quiet
      refine storeRegister_agrees stepped fun byte covered => reaches byte ?_
      refine ⟨_, List.mem_singleton.mpr rfl, disp, size, rfl, ?_⟩
      simpa [address, start] using covered
    | imm | place | symbol => cases mn <;> cases quiet
  | label name => cases quiet
  | comment text => cases quiet

end Machine
end Nasm64
