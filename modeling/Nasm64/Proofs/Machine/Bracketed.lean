import Nasm64.Proofs.Machine.Preserve

/-! What bracketed code leaves behind when it runs. -/
namespace Nasm64

open Lower

namespace Machine

variable {w : World} {m middle next : Machine} {r : Register}

/-- A register was saved on the stack. A float register opens a block of its own. -/
structure Pushed (register : Register) (before after : Machine) : Prop where
  fits : 8 ≤ before.room
  stack : after.reg .rsp = before.reg .rsp - 8
  registers : ∀ family, family ≠ .rsp → after.reg family = before.reg family
  memory : after.memory = before.memory.store (before.reg .rsp - 8) 8 (before.reg register.family)
  floor : after.floor = before.floor
  blocks : after.blocks = if register.isFloat then before.reg .rsp :: before.blocks else before.blocks

structure Popped (register : Register) (before after : Machine) : Prop where
  stack : after.reg .rsp = before.reg .rsp + 8
  restored : after.reg register.family = before.memory.load (before.reg .rsp) 8
  registers : ∀ family, family ≠ .rsp → family ≠ register.family →
    after.reg family = before.reg family
  memory : after.memory = before.memory
  floor : after.floor = before.floor
  blocks : after.blocks = if register.isFloat then before.blocks.tail else before.blocks

section

variable (pushed : Pushed r m next)

include pushed

theorem Pushed.toNat_stack : (next.reg .rsp).toNat + 8 = (m.reg .rsp).toNat := by
  have fits := pushed.fits
  have bound := (m.reg .rsp).isLt
  simp only [room] at fits
  rw [pushed.stack, BitVec.toNat_sub]
  have eight : (8 : BitVec 64).toNat = 8 := rfl
  omega

theorem Pushed.below (below : next.isBelow (next.reg .rsp) byte) : m.isBelow (m.reg .rsp) byte := by
  have stack := pushed.toNat_stack
  have high := below.2
  exact ⟨pushed.floor ▸ below.1, by omega⟩

theorem Pushed.memory_apart (apart : ¬ m.isBelow (m.reg .rsp) byte) :
    next.memory byte = m.memory byte := by
  have stack := pushed.toNat_stack
  have fits := pushed.fits
  rw [pushed.memory, ← pushed.stack]
  refine Memory.store_apart fun covered => apart ?_
  have bound := (m.reg .rsp).isLt
  simp only [room] at fits
  rw [Memory.covers_iff (by omega)] at covered
  exact ⟨by omega, by omega⟩

/-- The word saved is read back, as long as nothing stored to it. -/
theorem Pushed.load {memory : Memory}
    (kept : ∀ byte, m.isBelow (m.reg .rsp) byte → ¬ next.isBelow (next.reg .rsp) byte →
      memory byte = next.memory byte) : memory.load (next.reg .rsp) 8 = m.reg r.family := by
  have stack := pushed.toNat_stack
  have fits := pushed.fits
  have bound := (m.reg .rsp).isLt
  simp only [room] at fits
  have same : memory.load (next.reg .rsp) 8 = next.memory.load (next.reg .rsp) 8 := by
    refine Memory.load_congr (fun byte covered => kept byte ?_ ?_) (by decide)
    · rw [Memory.covers_iff (by omega)] at covered
      exact ⟨by omega, by omega⟩
    · rw [Memory.covers_iff (by omega)] at covered
      simp only [isBelow]
      omega
  rw [same, pushed.memory, pushed.stack, Memory.load_store]
  simp [Word.low]

end

theorem pushed_of_run (ran : run w (pushCode r) m = some next) : Pushed r m next := by
  unfold pushCode at ran
  split at ran
  · rename_i isFloat
    have aside : r.family ≠ .rsp := by
      intro same
      simp [Register.isFloat, same, Family.isFloat] at isFloat
    simp only [run, Option.bind_eq_some_iff] at ran
    obtain ⟨lowered, reserved, stored, storing, same⟩ := ran
    cases same
    simp only [step, binary, Register.stackPointer, if_true, reserve?] at reserved
    split at reserved
    · rename_i fits
      cases reserved
      simp only [step, storeRegister] at storing
      split at storing
      · cases storing
        refine ⟨fits, rfl, fun fam other => if_neg other, ?_, rfl, by simp [isFloat]⟩
        simp [address, start, Address.aboveStack, Register.stackPointer, set, aside]
      · cases storing
    · cases reserved
  · rename_i isGeneral
    simp only [run, step, Option.bind_eq_some_iff] at ran
    obtain ⟨pushed, pushing, same⟩ := ran
    cases same
    split at pushing
    · simp only [push?] at pushing
      split at pushing
      · rename_i fits
        cases pushing
        exact ⟨fits, rfl, fun fam other => if_neg other, rfl, rfl, by simp [isGeneral, set]⟩
      · cases pushing
    · cases pushing

theorem popped_of_run (ord : r.family.isOrdinary = true)
    (ran : run w (popCode r) m = some next) : Popped r m next := by
  have aside := ordinary_ne_stack ord
  unfold popCode at ran
  split at ran
  · rename_i isFloat
    have special : r.isGeneral = false := by simp [Register.isGeneral, isFloat]
    simp only [run, Option.bind_eq_some_iff] at ran
    obtain ⟨loaded, loading, released, releasing, same⟩ := ran
    cases same
    have content : m.computed w .movsd r (.mem 8 (.aboveStack 0)) =
        some (m.memory.load (m.reg .rsp) 8, m.flags) := by
      simp [computed, special, isFloat, floating, floatOperand, address, start, Address.aboveStack,
        Register.stackPointer]
    simp only [step, binary, aside, if_false, reduceCtorEq, content, Option.map_some] at loading
    cases loading
    simp only [step, binary, Register.stackPointer, if_true] at releasing
    cases releasing
    refine ⟨?_, ?_, ?_, rfl, rfl, by simp [release, update, set, isFloat]⟩
    · simp [release, update, set, aside.symm]
    · simp [release, update, set, aside]
    · intro fam other apart
      simp [release, update, set, other, apart]
  · rename_i isGeneral
    simp only [run, step, Option.bind_eq_some_iff] at ran
    obtain ⟨popped, popping, same⟩ := ran
    cases same
    split at popping
    · cases popping
      exact ⟨by simp [pop, set, Register.resize, aside.symm], by simp [pop, set, Register.resize],
        fun fam other apart => by simp [pop, set, Register.resize, other, apart], rfl, rfl,
        by simp [isGeneral, pop, set]⟩
    · cases popping

/-- A register that is saved and restored around code comes back, if the code leaves its word on the
stack alone. -/
theorem saved_agrees {changes : Family → Prop} {inner touches : BitVec 64 → Prop} {pushed : Machine}
    (before : Pushed r m pushed)
    (inside : Agrees (fun fam => fam.isOrdinary = true ∧
      (changes fam ∨ fam = r.family)) inner pushed popped)
    (after : Popped r popped next)
    (spares : ∀ byte, m.isBelow (m.reg .rsp) byte → ¬ pushed.isBelow (pushed.reg .rsp) byte →
      ¬ inner byte)
    (reaches : ∀ byte, inner byte → touches byte)
    (free : ∀ byte, m.isBelow (m.reg .rsp) byte → touches byte) :
    Agrees (fun fam => fam.isOrdinary = true ∧ changes fam) touches m next where
  registers := by
    have stack : popped.reg .rsp = pushed.reg .rsp := inside.registers _ fun ⟨used, _⟩ => by cases used
    intro fam kept
    by_cases top : fam = .rsp
    · subst top
      rw [after.stack, stack, before.stack]
      exact BitVec.sub_add_cancel _ _
    · by_cases same : fam = r.family
      · subst same
        rw [after.restored, stack]
        exact before.load fun byte below above => inside.memory byte (spares byte below above)
      · rw [after.registers fam top same, inside.registers fam ?_, before.registers fam top]
        rintro ⟨used, changed | equal⟩
        · exact kept ⟨used, changed⟩
        · exact same equal
  memory := by
    intro byte kept
    rw [after.memory, inside.memory byte fun touched => kept (reaches byte touched)]
    exact before.memory_apart fun below => kept (free byte below)
  floor := after.floor.trans (inside.floor.trans before.floor)
  blocks := by
    rw [after.blocks, inside.blocks, before.blocks]
    split <;> rfl

/-- A word goes from one register to another by way of the stack. -/
theorem moved_agrees (alike : r.isFloat = dst.isFloat) (before : Pushed r m middle)
    (after : Popped dst middle next) (changed : changes dst.family)
    (free : ∀ byte, m.isBelow (m.reg .rsp) byte → touches byte) :
    Agrees changes touches m next where
  registers := by
    intro fam kept
    by_cases top : fam = .rsp
    · subst top
      rw [after.stack, before.stack]
      exact BitVec.sub_add_cancel _ _
    · have other : fam ≠ dst.family := by
        rintro rfl
        exact kept changed
      rw [after.registers fam top other, before.registers fam top]
  memory := by
    intro byte kept
    rw [after.memory]
    exact before.memory_apart fun below => kept (free byte below)
  floor := after.floor.trans before.floor
  blocks := by
    rw [after.blocks, before.blocks, ← alike]
    split <;> rfl

/-- The free stack reaches up to the stack pointer, and directly inside an argument area up to its
end. -/
def limit (machine : Machine) : Option Area → BitVec 64
  | none => machine.reg .rsp
  | some _ => machine.blockTop

/-- An argument area has its slots between the stack pointer and its end. -/
def Opens (machine : Machine) (area : Option Area) : Prop :=
  ∀ place, area = some place → 0 ≤ machine.room ∧
    (machine.reg .rsp).toNat + 8 * place.count ≤ machine.blockTop.toNat

theorem Opens.none : m.Opens none := by
  intro place same
  cases same

theorem Opens.below_limit (opens : m.Opens area) (below : m.isBelow (m.reg .rsp) byte) :
    m.isBelow (m.limit area) byte := by
  cases area with
  | none => exact below
  | some place =>
    obtain ⟨_, slots⟩ := opens place rfl
    have high := below.2
    refine ⟨below.1, ?_⟩
    simp only [limit]
    omega

/-- What code may touch in memory: the free stack and the frame slots it stores to. -/
def touched (machine : Machine) (area : Option Area) (code : Code) (byte : BitVec 64) : Prop :=
  machine.isBelow (machine.limit area) byte ∨ code.storesTo (machine.reg .rbp) byte

/-- The frame slots that code stores to are not on the free stack. -/
def Clear (machine : Machine) (code : Code) : Prop :=
  ∀ byte, code.storesTo (machine.reg .rbp) byte → ¬ machine.isBelow (machine.reg .rsp) byte

end Machine

theorem Code.storesTo_append :
    Code.storesTo (first ++ second) base byte ↔
      first.storesTo base byte ∨ second.storesTo base byte := by
  simp only [Code.storesTo, List.mem_append]
  constructor
  · rintro ⟨line, left | right, found⟩
    · exact .inl ⟨line, left, found⟩
    · exact .inr ⟨line, right, found⟩
  · rintro (⟨line, left, found⟩ | ⟨line, right, found⟩)
    · exact ⟨line, .inl left, found⟩
    · exact ⟨line, .inr right, found⟩

namespace Lower

/-- Code without calls, or one whose argument areas are as large as they should be. -/
def Sound (env : Env) (depth : Int64) (weight : Nat) (code : Code) : Prop :=
  (∀ label, .call label ∉ code) ∨
    (0 < env.stackAlignment.toInt ∧ 0 ≤ depth.toInt ∧ depth.toInt + weight < 2 ^ 63)

namespace Sound

variable {env : Env} {depth : Int64} {weight : Nat} {first second : Code}

theorem left (sound : Sound env depth weight (first ++ second)) : Sound env depth weight first :=
  sound.imp (fun none label mem => none label (List.mem_append_left _ mem)) id

theorem right (sound : Sound env depth weight (first ++ second)) : Sound env depth weight second :=
  sound.imp (fun none label mem => none label (List.mem_append_right _ mem)) id

theorem deeper (sound : Sound env depth weight first) (fits : nested + 8 ≤ weight) :
    Sound env (depth + 8) nested first := by
  refine sound.imp id fun ⟨positive, natural, room⟩ => ⟨positive, ?_⟩
  have eight : (8 : Int64).toInt = 8 := rfl
  have sum : (depth + 8).toInt = depth.toInt + 8 := by
    rw [Word.toInt_add (by omega) (by omega), eight]
  omega

end Sound

end Lower

namespace Machine

variable {w : World} {m middle next : Machine}

theorem Agrees.stack {changes : Family → Prop} {touches : BitVec 64 → Prop}
    (agrees : Agrees (fun fam => fam.isOrdinary = true ∧ changes fam) touches m next) :
    next.reg .rsp = m.reg .rsp ∧ next.reg .rbp = m.reg .rbp :=
  ⟨agrees.registers _ (fun ⟨used, _⟩ => by cases used),
    agrees.registers _ (fun ⟨used, _⟩ => by cases used)⟩

theorem Agrees.frame {changes : Family → Prop} {touches : BitVec 64 → Prop}
    (agrees : Agrees (fun fam => fam.isOrdinary = true ∧ changes fam) touches m next)
    (area : Option Area) (code : Code) :
    next.touched area code = m.touched area code ∧ (m.Clear code → next.Clear code) ∧
      (m.Opens area → next.Opens area) := by
  obtain ⟨stack, base⟩ := agrees.stack
  have top : next.blockTop = m.blockTop := by simp only [blockTop, agrees.blocks, stack]
  have limits : next.limit area = m.limit area := by cases area <;> simp [limit, top, stack]
  refine ⟨?_, ?_, ?_⟩
  · funext byte
    simp only [touched, isBelow, limits, base, agrees.floor]
  · simp only [Clear, isBelow, stack, base, agrees.floor]
    exact id
  · simp only [Opens, room, stack, top, agrees.floor]
    exact id

theorem reserve?_eq {bytes : Int64}
    (stepped : step w m (.binary .sub (.reg .stackPointer) (.imm bytes)) = some next) :
    bytes.toInt ≤ m.room ∧
      next = { m.set .rsp (m.reg .rsp - bytes.toBitVec) with
        blocks := m.reg .rsp :: m.blocks } := by
  simp only [step, binary, Register.stackPointer, if_true, reserve?] at stepped
  split at stepped
  · rename_i fits
    cases stepped
    exact ⟨fits, rfl⟩
  · cases stepped

/-- An area that was just reserved lies below, has room for its slots, and leaves the bounds in
place for the code inside. -/
theorem reserved_opens {env : Env} {depth : Int64} {count inner weight : Nat} {lowered : Machine}
    (positive : 0 < env.stackAlignment.toInt) (natural : 0 ≤ depth.toInt)
    (bound : depth.toInt + weight < 2 ^ 63) (fits : inner + env.areaBound count ≤ weight)
    (room : (env.areaAt depth count).toInt ≤ m.room)
    (before : lowered = { m.set .rsp (m.reg .rsp - (env.areaAt depth count).toBitVec) with
      blocks := m.reg .rsp :: m.blocks }) :
    (lowered.reg .rsp).toNat ≤ (m.reg .rsp).toNat ∧ lowered.Opens (some ⟨depth, count⟩) ∧
      0 ≤ (depth + env.areaAt depth count).toInt ∧
      (depth + env.areaAt depth count).toInt + inner < 2 ^ 63 := by
  obtain ⟨slots, small, deeper, _⟩ := areaAt_aligned positive natural
    (by omega : depth.toInt + env.areaBound count < 2 ^ 63)
  have stack : (lowered.reg .rsp).toNat + (env.areaAt depth count).toInt =
      (m.reg .rsp).toNat := by
    have positive : ((env.areaAt depth count).toBitVec.toNat : Int) =
        (env.areaAt depth count).toInt := Word.toNat_toBitVec (by omega)
    have ptr : lowered.reg .rsp = m.reg .rsp - (env.areaAt depth count).toBitVec := by
      rw [before]
      rfl
    have high := (m.reg .rsp).isLt
    simp only [Machine.room] at room
    rw [ptr, BitVec.toNat_sub]
    omega
  refine ⟨by omega, ?_, by omega, by omega⟩
  rintro place ⟨⟩
  have top : lowered.blockTop = m.reg .rsp := by rw [before]; rfl
  have floor : lowered.floor = m.floor := by rw [before]; rfl
  simp only [Machine.room, top, floor] at room ⊢
  exact ⟨by omega, by omega⟩

theorem release_eq
    (stepped : step w m (.binary .add (.reg .stackPointer) (.imm bytes)) = some next) :
    next = m.release bytes := by
  simp only [step, binary, Register.stackPointer, if_true] at stepped
  cases stepped
  rfl

theorem callee_agrees (opens : m.Opens (some place))
    (overwrites : ∀ fam, fam.isVolatile = true → changes fam) :
    Agrees changes (m.isBelow m.blockTop) m (m.callee w name) where
  registers := by
    intro fam kept
    have preserved : ¬ fam.isVolatile = true := fun volatile => kept (overwrites fam volatile)
    simp [callee, preserved]
  memory := by
    intro byte kept
    have lower : ¬ m.isBelow (m.reg .rsp) byte := fun below =>
      kept (opens.below_limit below)
    simp [callee, kept, lower]
  floor := rfl
  blocks := rfl

theorem argumentSlot_below {place : Area} {size : Int} (opens : m.Opens (some place))
    (narrow : 0 ≤ size ∧ size ≤ 8) (slot : index < place.count)
    (covered : Memory.covers (m.address w (argumentSlot index)) size.toNat byte) :
    m.isBelow m.blockTop byte := by
  obtain ⟨natural, slots⟩ := opens place rfl
  have bound := m.blockTop.isLt
  simp only [room] at natural
  have offset : (Int64.ofNat index * Call.slotSize).toBitVec.toNat = 8 * index := by
    have product : (Int64.ofNat index * Call.slotSize).toBitVec = BitVec.ofNat 64 (index * 8) := by
      rw [Int64.toBitVec_mul, Int64.toBitVec_ofNat', BitVec.ofNat_mul]
      rfl
    rw [product, BitVec.toNat_ofNat]
    omega
  have start : (m.address w (argumentSlot index)).toNat =
      (m.reg .rsp).toNat + 8 * index := by
    simp only [address, Machine.start, argumentSlot, Address.aboveStack, Register.stackPointer,
      Option.elim_none, BitVec.toNat_add, offset]
    have zero : (0 : BitVec 64).toNat = 0 := rfl
    omega
  rw [Memory.covers_iff (by omega), start] at covered
  exact ⟨by omega, by omega⟩

theorem staged_agrees (opens : m.Opens (some place)) (narrow : 0 ≤ size ∧ size ≤ 8)
    (slot : idx < place.count)
    (stepped : step w m (.binary mn (.mem size (argumentSlot idx)) (.reg src)) = some next) :
    Agrees changes (m.isBelow m.blockTop) m next :=
  storeRegister_agrees stepped fun _ covered => argumentSlot_below opens narrow slot covered

theorem reserved_agrees {changes : Family → Prop} {inner touches : BitVec 64 → Prop}
    {lowered : Machine} {bytes : Int64}
    (before : lowered = { m.set .rsp (m.reg .rsp - bytes.toBitVec) with
      blocks := m.reg .rsp :: m.blocks })
    (inside : Agrees (fun fam => fam.isOrdinary = true ∧ changes fam) inner lowered middle)
    (reaches : ∀ byte, inner byte → touches byte) :
    Agrees (fun fam => fam.isOrdinary = true ∧ changes fam) touches m (middle.release bytes) where
  registers := by
    intro fam kept
    by_cases top : fam = .rsp
    · subst top
      simp only [release, set, if_true, inside.stack.1, before]
      exact BitVec.sub_add_cancel _ _
    · simp only [release, set, if_neg top]
      rw [inside.registers fam kept, before]
      exact if_neg top
  memory := by
    intro byte kept
    refine (inside.memory byte fun touched => kept (reaches byte touched)).trans ?_
    rw [before]
    rfl
  floor := inside.floor.trans (by rw [before]; rfl)
  blocks := by
    simp only [release, inside.blocks, before, List.tail_cons]

end Machine

namespace Machine

variable {w : World} {m middle next : Machine} {r : Register} {instruction : Line}
  {first second code : Code} {byte : BitVec 64}

def Spares (world : World) (code : Code) (machine : Machine) (byte : BitVec 64) : Prop :=
  ∀ ⦃part later⦄, part <+: code → run world part machine = some later →
    later.memory byte = machine.memory byte

namespace Spares

theorem nil : Spares w [] m byte := by
  intro part later leads ran
  obtain rfl := List.prefix_nil.mp leads
  cases ran
  rfl

theorem cons
    (stepped : ∀ ⦃middle⦄, step w m instruction = some middle → middle.memory byte = m.memory byte ∧
      Spares w code middle byte) : Spares w (instruction :: code) m byte := by
  intro part later leads ran
  rcases List.prefix_cons_iff.mp leads with rfl | ⟨rest, rfl, follows⟩
  · cases ran
    rfl
  · simp only [run, Option.bind_eq_some_iff] at ran
    obtain ⟨middle, here, ran⟩ := ran
    obtain ⟨same, spared⟩ := stepped here
    exact (spared follows ran).trans same

theorem line
    (same : ∀ ⦃next⦄, step w m instruction = some next → next.memory byte = m.memory byte) :
    Spares w [instruction] m byte :=
  .cons fun _ here => ⟨same here, .nil⟩

theorem append (before : Spares w first m byte)
    (after : ∀ ⦃middle⦄, run w first m = some middle → Spares w second middle byte) :
    Spares w (first ++ second) m byte := by
  rintro part later ⟨rest, split⟩ ran
  rcases List.append_eq_append_iff.mp split with ⟨missing, rfl, _⟩ | ⟨further, rfl, rfl⟩
  · exact before (List.prefix_append _ _) ran
  · rw [run_append, Option.bind_eq_some_iff] at ran
    obtain ⟨middle, leads, ran⟩ := ran
    exact (after leads (List.prefix_append _ _) ran).trans (before (List.prefix_refl _) leads)

end Spares

theorem pushCode_spares (apart : ¬ m.isBelow (m.reg .rsp) byte) : Spares w (pushCode r) m byte := by
  intro part later leads ran
  have whole : part = pushCode r → later.memory byte = m.memory byte := by
    rintro rfl
    exact (pushed_of_run ran).memory_apart apart
  unfold pushCode at leads whole
  split at leads
  · rcases List.prefix_cons_iff.mp leads with rfl | ⟨rest, rfl, follows⟩
    · cases ran
      rfl
    · rcases List.prefix_cons_iff.mp follows with rfl | ⟨_, rfl, ended⟩
      · rw [run_line] at ran
        rw [(reserve?_eq ran).2]
        rfl
      · obtain rfl := List.prefix_nil.mp ended
        exact whole (by simp [*])
  · rcases List.prefix_cons_iff.mp leads with rfl | ⟨_, rfl, ended⟩
    · cases ran
      rfl
    · obtain rfl := List.prefix_nil.mp ended
      exact whole (by simp [*])

theorem popCode_spares (ordinary : r.family.isOrdinary = true) : Spares w (popCode r) m byte := by
  unfold popCode
  split
  · refine .cons fun middle loading => ⟨?_, .line fun next releasing => ?_⟩
    · simp only [step] at loading
      have agrees : Agrees (fun _ => True) (fun _ => False) m middle :=
        binary_agrees ordinary (by decide) loading fun _ => trivial
      exact agrees.memory byte id
    · rw [release_eq releasing]
      rfl
  · refine .line fun next popping => ?_
    simp only [step] at popping
    split at popping
    · cases popping
      rfl
    · cases popping

end Machine

theorem quiet_writes_ordinary {line : Line} {fam : Family} (quiet : line.isQuiet = true)
    (mem : fam ∈ line.writes) : fam.isOrdinary = true := by
  cases line with
  | plain mn =>
    cases mn with
    | cqo | cdq =>
      obtain rfl := List.mem_singleton.mp mem
      rfl
    | _ => cases quiet
  | unary mn opnd =>
    cases opnd with
    | reg dst =>
      simp only [Line.isQuiet, Bool.and_eq_true] at quiet
      cases mn <;> simp_all [Line.writes, Mnemonic.isUnaryComputation] <;>
        rcases mem with rfl | rfl <;> rfl
    | _ => cases quiet
  | binary mn dst src =>
    cases dst with
    | reg dst =>
      by_cases exchanges : mn = .xchg
      · subst exchanges
        cases src <;> simp_all [Line.isQuiet, Line.writes]
        rcases mem with rfl | rfl
        · exact quiet.1
        · exact quiet.2
      · simp only [Line.isQuiet] at quiet
        have same : fam = dst.family := by
          cases mn <;> simp_all [Line.writes, Mnemonic.isTest]
        rwa [same]
    | _ =>
      by_cases exchanges : mn = .xchg
      · subst exchanges
        unfold Line.isQuiet at quiet
        split at quiet
        all_goals try contradiction
        all_goals
          rename_i same
          cases same <;> simp [Mnemonic.isMove] at quiet
      · cases mn <;> simp_all [Line.writes]
  | label name => cases quiet
  | comment text => cases quiet

namespace Machine

variable {w : World} {m : Machine} {first second code body : Code} {changes : Family → Prop}
  {touches : BitVec 64 → Prop}

/-- What is known of a run of code: where it ends only some of the machine has changed, and other
bytes are the same all along. -/
structure Passes (world : World) (changes : Family → Prop) (touches : BitVec 64 → Prop) (code : Code)
    (machine : Machine) : Prop where
  spares : ∀ ⦃byte⦄, ¬ touches byte → Spares world code machine byte
  agrees : ∀ ⦃next⦄, run world code machine = some next →
    Agrees (fun family => family.isOrdinary = true ∧ changes family) touches machine next

namespace Passes

theorem nil : Passes w changes touches [] m where
  spares _ _ := .nil
  agrees next ran := by
    cases ran
    exact .refl _

theorem line
    (stepped : ∀ ⦃next⦄, step w m instruction = some next →
      Agrees (fun fam => fam.isOrdinary = true ∧ changes fam) touches m next) :
    Passes w changes touches [instruction] m where
  spares byte apart := .line fun _ here => (stepped here).memory byte apart
  agrees next ran := by
    rw [run_line] at ran
    exact stepped ran

theorem append (before : Passes w changes touches first m)
    (after : ∀ ⦃middle⦄, Agrees (fun fam => fam.isOrdinary = true ∧ changes fam) touches m middle →
      run w first m = some middle → Passes w changes touches second middle) :
    Passes w changes touches (first ++ second) m where
  spares byte apart := (before.spares apart).append fun _ leads =>
    (after (before.agrees leads) leads).spares apart
  agrees next ran := by
    rw [run_append, Option.bind_eq_some_iff] at ran
    obtain ⟨middle, leads, follows⟩ := ran
    have start := before.agrees leads
    exact start.trans ((after start leads).agrees follows)

theorem mono (passes : Passes w changes touches code m)
    (reaches : ∀ byte, touches byte → wider byte) : Passes w changes wider code m where
  spares byte apart := passes.spares fun touched => apart (reaches byte touched)
  agrees _ ran := (passes.agrees ran).mono (fun _ => id) reaches

theorem saved (inner : Machine → BitVec 64 → Prop) (ord : r.family.isOrdinary = true)
    (inside : ∀ ⦃pushed⦄, Pushed r m pushed →
      Passes w (fun fam => changes fam ∨ fam = r.family) (inner pushed) body pushed ∧
      (∀ byte, m.isBelow (m.reg .rsp) byte → ¬ pushed.isBelow (pushed.reg .rsp) byte →
        ¬ inner pushed byte) ∧ ∀ byte, inner pushed byte → touches byte)
    (free : ∀ byte, m.isBelow (m.reg .rsp) byte → touches byte) :
    Passes w changes touches (pushCode r ++ body ++ popCode r) m where
  spares byte apart := by
    refine .append (.append (pushCode_spares fun below => apart (free byte below)) fun pushed leads =>
      ?_) fun _ _ => popCode_spares ord
    obtain ⟨passes, _, reaches⟩ := inside (pushed_of_run leads)
    exact passes.spares fun touched => apart (reaches byte touched)
  agrees next ran := by
    simp only [run_append, Option.bind_eq_some_iff] at ran
    obtain ⟨popped, ⟨pushed, leads, middle⟩, follows⟩ := ran
    have before := pushed_of_run leads
    obtain ⟨passes, spares, reaches⟩ := inside before
    exact saved_agrees before (passes.agrees middle) (popped_of_run ord follows) spares reaches
      free

theorem reserved {bytes : Int64} (inner : Machine → BitVec 64 → Prop)
    (inside : ∀ ⦃lowered⦄, bytes.toInt ≤ m.room →
      lowered = { m.set .rsp (m.reg .rsp - bytes.toBitVec) with
        blocks := m.reg .rsp :: m.blocks } →
      Passes w changes (inner lowered) body lowered ∧ ∀ byte, inner lowered byte → touches byte) :
    Passes w changes touches (reservedCode bytes body) m where
  spares byte apart := by
    refine .append (.append (.line fun lowered reserving => ?_) fun lowered leads => ?_)
      fun _ _ => .line fun _ releasing => ?_
    · rw [(reserve?_eq reserving).2]
      rfl
    · rw [run_line] at leads
      obtain ⟨room, before⟩ := reserve?_eq leads
      obtain ⟨passes, reaches⟩ := inside room before
      exact passes.spares fun touched => apart (reaches byte touched)
    · rw [release_eq releasing]
      rfl
  agrees next ran := by
    simp only [reservedCode, run_append, run_line, Option.bind_eq_some_iff] at ran
    obtain ⟨middle, ⟨lowered, leads, running⟩, follows⟩ := ran
    obtain ⟨room, before⟩ := reserve?_eq leads
    obtain rfl := release_eq follows
    obtain ⟨passes, reaches⟩ := inside room before
    exact reserved_agrees before (passes.agrees running) reaches

end Passes

end Machine

namespace Lower.Bracketed

variable {env : Env} {depth : Int64} {area : Option Area} {weight : Nat} {changes : Family → Prop}
  {code : Code} {w : World} {m next : Machine}

/-- Bracketed code leaves the machine as it was, but for the families it may change, the free stack
and the frame slots it stores to. -/
theorem passes (bracketed : Bracketed env depth area weight changes code)
    (sound : Sound env depth weight code) (clear : m.Clear code) (opens : m.Opens area) :
    Machine.Passes w changes (m.touched area code) code m := by
  induction bracketed generalizing m with
  | nil => exact .nil
  | line quiet writes =>
    refine .line fun next stepped => Machine.quiet_agrees quiet stepped ?_ fun _ stored => .inr stored
    exact fun fam mem => ⟨quiet_writes_ordinary quiet mem, writes fam mem⟩
  | append _ _ before after =>
    rename_i area weight _ first second _ _
    have ahead := before sound.left
      (fun byte stored => clear byte (Code.storesTo_append.mpr (.inl stored))) opens
    refine .append (ahead.mono fun byte => Or.imp id fun stored =>
      Code.storesTo_append.mpr (.inl stored)) fun middle start _ => ?_
    obtain ⟨same, clears, open'⟩ := start.frame area second
    have behind := after sound.right (clears fun byte stored =>
      clear byte (Code.storesTo_append.mpr (.inr stored))) (open' opens)
    rw [same] at behind
    exact behind.mono fun byte => Or.imp id fun stored => Code.storesTo_append.mpr (.inr stored)
  | saved ord fits _ inside =>
    rename_i area weight inner _ r body _
    have stores : ∀ byte, body.storesTo (m.reg .rbp) byte →
        Code.storesTo (pushCode r ++ body ++ popCode r) (m.reg .rbp) byte :=
      fun byte stored => Code.storesTo_append.mpr (.inl (Code.storesTo_append.mpr (.inr stored)))
    refine .saved (·.touched none body) ord (fun pushed before => ?_) fun byte below =>
      .inl (opens.below_limit below)
    have frame : pushed.reg .rbp = m.reg .rbp := before.registers _ (by simp)
    refine ⟨inside (sound.left.right.deeper fits) (fun byte stored below =>
      clear byte (stores byte (frame ▸ stored)) (before.below below)) .none, ?_, ?_⟩
    · rintro byte below above (within | stored)
      · exact above within
      · exact clear byte (stores byte (frame ▸ stored)) below
    · rintro byte (within | stored)
      · exact .inl (opens.below_limit (before.below within))
      · exact .inr (stores byte (frame ▸ stored))
  | moved ord alike fits changed =>
    have free : ∀ byte, m.isBelow (m.reg .rsp) byte → m.isBelow (m.limit _) byte :=
      fun _ below => opens.below_limit below
    constructor
    · intro byte apart
      refine .append ?_ fun _ _ => Machine.popCode_spares ord
      exact Machine.pushCode_spares fun below => apart (.inl (free byte below))
    · intro next ran
      rw [Machine.run_append, Option.bind_eq_some_iff] at ran
      obtain ⟨middle, leads, follows⟩ := ran
      exact Machine.moved_agrees alike (Machine.pushed_of_run leads)
        (Machine.popped_of_run ord follows) ⟨ord, changed⟩ fun byte below =>
          .inl (free byte below)
  | reserved fits calls _ inside =>
    rename_i depth area weight inner count changes body label _
    -- There is a call, so the bounds hold and the area has all its slots.
    rcases sound with none | ⟨positive, natural, bound⟩
    · exact absurd (by simp [reservedCode, calls]) (none label)
    refine .reserved (·.touched (some ⟨depth, count⟩) body) fun lowered room before => ?_
    obtain ⟨lower, opened, deeper, spare⟩ :=
      Machine.reserved_opens positive natural bound fits room before
    have stores : ∀ byte, body.storesTo (m.reg .rbp) byte →
        Code.storesTo (reservedCode (env.areaAt depth count) body) (m.reg .rbp) byte :=
      fun byte stored => Code.storesTo_append.mpr (.inl (Code.storesTo_append.mpr (.inr stored)))
    have top : lowered.blockTop = m.reg .rsp := by rw [before]; rfl
    have frame : lowered.reg .rbp = m.reg .rbp := by rw [before]; rfl
    have floor : lowered.floor = m.floor := by rw [before]; rfl
    refine ⟨inside (.inr ⟨positive, deeper, spare⟩) (fun byte stored below =>
      clear byte (stores byte (frame ▸ stored)) ⟨floor ▸ below.1, by
        have := below.2
        omega⟩) opened, ?_⟩
    rintro byte (within | stored)
    · refine .inl (opens.below_limit ?_)
      simpa only [Machine.isBelow, Machine.limit, top, floor] using within
    · exact .inr (stores byte (frame ▸ stored))
  | staged moves narrow slot =>
    exact .line fun next stepped =>
      (Machine.staged_agrees opens narrow slot stepped).mono (fun _ => id) fun _ => .inl
  | call overwrites =>
    refine .line fun next stepped => ?_
    cases stepped
    exact (Machine.callee_agrees opens fun fam volatile =>
      ⟨Family.isOrdinary_of_isVolatile volatile, overwrites fam volatile⟩).mono (fun _ => id)
      fun _ => .inl

theorem agrees (bracketed : Bracketed env depth area weight changes code)
    (sound : Sound env depth weight code) (clear : m.Clear code) (opens : m.Opens area)
    (ran : m.run w code = some next) :
    Machine.Agrees (fun fam => fam.isOrdinary = true ∧ changes fam)
      (m.touched area code) m next := (bracketed.passes sound clear opens).agrees ran

end Lower.Bracketed
end Nasm64
