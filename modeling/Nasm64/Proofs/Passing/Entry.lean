import Nasm64.Proofs.Account.Preserved
import Nasm64.Proofs.Passing.Parameters

/-! What the machine does when it enters a method. The return address and the frame pointer of the
caller lie between the arguments on the stack and the new frame, and each argument is copied to its
slot there. -/
namespace Nasm64

open Lower Word Call Machine

/-- Lanes are neither the frame pointer nor the register that values pass through. -/
theorem Lane.register_aside (ty : Ty) (listed : lane ∈ Lane.all) :
    (lane.register ty).family ≠ .rbp ∧ (lane.register ty).family ≠ .r11 := by
  have apart : ∀ lane ∈ Lane.all, (lane.float ≠ .rbp ∧ lane.float ≠ .r11) ∧
      (lane.general ≠ .rbp ∧ lane.general ≠ .r11) := by decide
  unfold register
  split
  · exact (apart lane listed).1
  · exact (apart lane listed).2

namespace Machine

section

variable (world : World) (upper : Family → BitVec 64)

/-- The lines at the entry of a method. A label does nothing. A float register is stored with its
upper half, which is not modelled elsewhere. -/
def enterLine (machine : Machine) : Line → Option Machine
  | .label _ => some machine
  | .binary .movdqu (.mem 16 address) (.reg source) =>
    let start := machine.address world address
    if source.isFloat then
      some { machine with
        memory := (machine.memory.store start 8 (machine.reg source.family)).store (start + 8) 8
          (upper source.family) }
    else none
  | line => step world machine line

def enter : Code → Machine → Option Machine
  | [], machine => some machine
  | line :: rest, machine => (enterLine world upper machine line).bind (enter rest)

/-- A call leaves its return address on the stack. -/
def entered (back : BitVec 64) (code : Code) (machine : Machine) : Option Machine :=
  (machine.push? back).bind (enter world upper code)

theorem enter_append (first second : Code) (mach : Machine) :
    enter world upper (first ++ second) mach =
      (enter world upper first mach).bind (enter world upper second) := by
  induction first generalizing mach with
  | nil => rfl
  | cons line rest ih =>
    simp only [List.cons_append, enter, Option.bind_assoc]
    congr 1
    funext middle
    exact ih middle

end

variable {world : World} {upper : Family → BitVec 64} {mach middle next atCall : Machine}
  {size : Int}

theorem enter_cons (stepped : enterLine world upper mach line = some middle)
    (ran : enter world upper rest middle = some next) :
    enter world upper (line :: rest) mach = some next := by
  rw [enter, stepped]
  exact ran

theorem enter_join (before : enter world upper first mach = some middle)
    (after : enter world upper second middle = some next) :
    enter world upper (first ++ second) mach = some next := by
  rw [enter_append, before]
  exact after

def frameAddress (atCall : Machine) (offset : Int64) : BitVec 64 :=
  atCall.reg .rsp - 16 - offset.toBitVec

/-- The machine inside a method that was called, while its arguments are still where they came. -/
structure Inside (atCall : Machine) (size : Int) (machine : Machine) : Prop where
  fits : size + 16 ≤ (atCall.reg .rsp).toNat
  base : machine.reg .rbp = atCall.reg .rsp - 16
  registers : ∀ family, family ≠ .rsp → family ≠ .rbp → family ≠ .r11 →
    machine.reg family = atCall.reg family
  above : ∀ byte, (atCall.reg .rsp).toNat ≤ byte.toNat → machine.memory byte = atCall.memory byte

namespace Inside

section

variable (inside : Inside atCall size mach)

include inside

theorem base_toNat (natural : 0 ≤ size) : (mach.reg .rbp).toNat = (atCall.reg .rsp).toNat - 16 := by
  have fits := inside.fits
  rw [inside.base, BitVec.toNat_sub_of_le]
  · rfl
  · rw [BitVec.le_def]
    show 16 ≤ _
    omega

theorem address_slot (world : World) (offset : Int64) :
    mach.address world (.frameSlot offset) = atCall.frameAddress offset := by
  have base := inside.base
  simp [address, Address.frameSlot, start, Register.framePointer, frameAddress, base,
    BitVec.sub_eq_add_neg]

theorem covers_slot {offset : Int64} {bytes : Nat} {byte : BitVec 64} (low : bytes ≤ offset.toInt)
    (high : offset.toInt ≤ size) :
    Memory.covers (atCall.frameAddress offset) bytes byte ↔
      (mach.reg .rbp).toNat - offset.toInt ≤ byte.toNat ∧
      byte.toNat < (mach.reg .rbp).toNat - offset.toInt + bytes := by
  have base := inside.base_toNat (by omega)
  have fits := inside.fits
  have word : (offset.toBitVec.toNat : Int) = offset.toInt := toNat_toBitVec (by omega)
  have bound := (atCall.reg .rsp).isLt
  have placed : (atCall.frameAddress offset).toNat =
      (mach.reg .rbp).toNat - offset.toBitVec.toNat := by
    rw [frameAddress, ← inside.base, BitVec.toNat_sub_of_le]
    rw [BitVec.le_def]
    omega
  rw [Memory.covers_iff (by omega), placed]
  omega

theorem stored {memory : Memory} {offset : Int64} (bytes : Nat) (low : bytes ≤ offset.toInt)
    (high : offset.toInt ≤ size)
    (others : ∀ byte, ¬ Memory.covers (atCall.frameAddress offset) bytes byte →
      memory byte = mach.memory byte) : Inside atCall size { mach with memory } where
  fits := inside.fits
  base := inside.base
  registers := inside.registers
  above byte beyond := by
    refine (others byte fun covered => ?_).trans (inside.above byte beyond)
    have base := inside.base_toNat (by omega)
    rw [inside.covers_slot low high] at covered
    omega

end

end Inside

theorem push?_runs (v : BitVec 64) (fits : 8 ≤ mach.room) :
    ∃ next, mach.push? v = some next ∧ next.reg .rsp = mach.reg .rsp - 8 ∧
      (∀ fam, fam ≠ .rsp → next.reg fam = mach.reg fam) ∧
      (∀ byte, (mach.reg .rsp).toNat ≤ byte.toNat → next.memory byte = mach.memory byte) ∧
      (next.reg .rsp).toNat ≤ (mach.reg .rsp).toNat ∧ next.room = mach.room - 8 := by
  have wide : 8 ≤ (mach.reg .rsp).toNat := by
    unfold room at fits
    omega
  have top : (mach.reg .rsp - 8).toNat = (mach.reg .rsp).toNat - 8 := by
    rw [BitVec.toNat_sub_of_le]
    · rfl
    · rw [BitVec.le_def]
      exact wide
  refine ⟨_, if_pos fits, by simp [set], fun fam other => if_neg other, fun byte high => ?_, ?_, ?_⟩
  · refine Memory.store_apart fun covered => ?_
    rw [Memory.covers_iff (by have := (mach.reg .rsp).isLt; omega)] at covered
    omega
  · simp only [set, if_true, top]
    omega
  · simp only [room, set, if_true, top]
    omega

theorem step_enterBase (world : World) (mach : Machine) :
    step world mach (.mov (.reg .framePointer) (.reg .stackPointer)) =
      some (mach.set .rbp (mach.reg .rsp)) := by
  have general : mach.general world .mov .framePointer (.reg .stackPointer) =
      some (mach.reg .rsp, mach.flags) := by
    show some (blend 8 _ (mach.view .stackPointer), mach.flags) = _
    rw [blend_eight]
    exact congrArg (fun v => some (v, mach.flags)) low_eight
  show (mach.computed world .mov .framePointer (.reg .stackPointer)).map _ = _
  rw [computed, if_pos (by decide), general]
  rfl

theorem opened (world : World) (upper : Family → BitVec 64) (label : String) {size : Int64}
    (back : BitVec 64) (natural : 0 ≤ size.toInt) (fits : size.toInt + 16 ≤ atCall.room) :
    ∃ inside, atCall.entered world upper back [.label label, .unary .push (.reg .framePointer),
        .mov (.reg .framePointer) (.reg .stackPointer),
        .binary .sub (.reg .stackPointer) (.imm size)] = some inside ∧
      Inside atCall size.toInt inside := by
  have wide : size.toInt + 16 ≤ (atCall.reg .rsp).toNat := by
    unfold room at fits
    omega
  obtain ⟨called, pushed, stack, others, above, below, room⟩ :=
    atCall.push?_runs back (by omega)
  obtain ⟨framed, saved, lower, same, beyond, _, left⟩ :=
    called.push?_runs (called.reg .rbp) (by omega)
  let based := framed.set .rbp (framed.reg .rsp)
  have enough : size.toInt ≤ based.room := by
    show size.toInt ≤ framed.room
    omega
  refine ⟨{ based.set .rsp (based.reg .rsp - size.toBitVec) with
      blocks := based.reg .rsp :: based.blocks }, ?_, ?_⟩
  · rw [entered, pushed, Option.bind_some]
    refine enter_cons rfl (enter_cons saved (enter_cons (step_enterBase world framed)
      (enter_cons ?_ rfl)))
    exact if_pos enough
  · refine ⟨wide, ?_, fun fam _ _ _ => ?_, fun byte high => ?_⟩
    · show framed.reg .rsp = _
      rw [lower, stack, BitVec.sub_sub]
      rfl
    · show (if fam = .rsp then _ else if fam = .rbp then _ else framed.reg fam) = _
      rw [if_neg (by assumption), if_neg (by assumption), same fam (by assumption)]
      exact others fam (by assumption)
    · exact (beyond byte (by omega)).trans (above byte high)

theorem covers_upper {addr byte : BitVec 64} (covered : Memory.covers (addr + 8) 8 byte) :
    Memory.covers addr 16 byte := by
  have split : byte - addr = byte - (addr + 8) + 8 := by grind
  unfold Memory.covers at covered ⊢
  rw [split, BitVec.toNat_add, show (8 : BitVec 64).toNat = 8 from rfl]
  omega

theorem save_runs_inside (world : World) (upper : Family → BitVec 64)
    (inside : Inside atCall size mach) {slot : SavedSlot} {fam : Family}
    (named : slot.register = ⟨fam, 8⟩) (relied : fam.isCalleeSaved = true)
    (low : slot.frameSlot.bytes ≤ slot.offset.toInt) (high : slot.offset.toInt ≤ size) :
    ∃ next, enterLine world upper mach slot.save = some next ∧ Inside atCall size next := by
  have addr := inside.address_slot world slot.offset
  have bytes : slot.frameSlot.bytes = if fam.isFloat then 16 else 8 := by
    simp only [SavedSlot.frameSlot, named, savedNeed]
    split <;> decide
  have isFloat : slot.register.isFloat = fam.isFloat := by rw [named]; rfl
  unfold SavedSlot.save
  cases float : fam.isFloat with
  | true =>
    simp only [isFloat, float, if_true] at bytes ⊢
    refine ⟨_, if_pos (isFloat.trans float), inside.stored 16 (by omega) high ?_⟩
    intro byte outside
    rw [addr, Memory.store_apart fun covered => outside (covers_upper covered)]
    exact Memory.store_apart fun covered => outside (Nat.lt_of_lt_of_le covered (by omega))
  | false =>
    simp only [isFloat, float, Bool.false_eq_true, if_false] at bytes ⊢
    have stores : isStore .mov 8 slot.register = true := by
      have general : ∀ fam ∈ Family.calleeSaved, fam.isFloat = false →
        isStore .mov 8 ⟨fam, 8⟩ = true := by decide
      rw [named]
      exact general fam (Family.mem_calleeSaved relied) float
    refine ⟨_, if_pos stores, inside.stored 8 (by omega) high ?_⟩
    intro byte outside
    rw [addr]
    exact Memory.store_apart outside

theorem saves_run_inside (world : World) (upper : Family → BitVec 64) {saved : List SavedSlot}
    (inside : Inside atCall size mach)
    (named : ∀ slot ∈ saved, ∃ fam, slot.register = ⟨fam, 8⟩ ∧ fam.isCalleeSaved = true)
    (within : ∀ slot ∈ saved, slot.frameSlot.bytes ≤ slot.offset.toInt ∧ slot.offset.toInt ≤ size) :
    ∃ next, enter world upper (saved.map SavedSlot.save) mach = some next ∧
      Inside atCall size next := by
  induction saved generalizing mach with
  | nil => exact ⟨mach, rfl, inside⟩
  | cons slot rest ih =>
    obtain ⟨⟨fam, name, relied⟩, named⟩ := List.forall_mem_cons.mp named
    obtain ⟨⟨low, high⟩, within⟩ := List.forall_mem_cons.mp within
    obtain ⟨middle, stepped, still⟩ := save_runs_inside world upper inside name relied low high
    obtain ⟨next, ran, ends⟩ := ih still named within
    exact ⟨next, enter_cons stepped ran, ends⟩

theorem Inside.address_incoming (inside : Inside atCall size mach) (world : World) (index : Nat) :
    mach.address world (incomingSlot index) = slotAddress (atCall.reg .rsp) index := by
  have offset : (16 + Int64.ofNat index * slotSize).toBitVec =
      16 + BitVec.ofNat 64 (8 * index) := by
    rw [Int64.toBitVec_add, toBitVec_slotOffset]
    rfl
  have base := inside.base
  simp only [address, start, incomingSlot, Register.framePointer, base, offset, Option.elim_none,
    slotAddress]
  grind

theorem enter_store (world : World) (upper : Family → BitVec 64) (mach : Machine) {float : Bool}
    {src : Register} {addr : Address} (working : src.Working float) :
    enter world upper (store (.mem src.size addr) src) mach = some { mach with
      memory := mach.memory.store (mach.address world addr) src.size.toNat
        (mach.reg src.family) } := by
  unfold store
  cases float with
  | false =>
    rw [working.isFloat]
    refine enter_cons (if_pos ?_) rfl
    simp [isStore, working.general]
  | true =>
    rw [working.isFloat]
    have sizes := working.supported
    simp only [Register.inPool, if_true, Bool.or_eq_true, beq_iff_eq] at sizes
    rcases sizes with size | size
    · rw [size]
      refine enter_cons (if_pos ?_) rfl
      simp [isStore, Conversion.floatMove, working.isFloat]
    · rw [size]
      refine enter_cons (if_pos ?_) rfl
      simp [isStore, Conversion.floatMove, working.isFloat]

theorem argument_lane (found : Lane.all[index]? = some lane) :
    atCall.argument (atCall.reg .rsp) index ty = atCall.view (lane.register ty) := by
  simp only [argument, found]

theorem argument_stack (none : Lane.all[index]? = none) :
    atCall.argument (atCall.reg .rsp) index ty =
      atCall.memory.load (slotAddress (atCall.reg .rsp) index) ty.registerSize.toNat := by
  simp only [argument, none]

/-- An argument is copied to its slot, and nothing else in memory changes. -/
structure Copied (atCall : Machine) (index : Nat) (slot : Variable) (before after : Machine) : Prop
  where
  holds : after.memory.load (atCall.frameAddress slot.offset) slot.type.registerSize.toNat =
    atCall.argument (atCall.reg .rsp) index slot.type
  others : ∀ byte, ¬ Memory.covers (atCall.frameAddress slot.offset) slot.type.registerSize.toNat
    byte →
    after.memory byte = before.memory byte

section

variable (inside : Inside atCall size mach)

include inside

theorem copied_of_stored {index : Nat} {slot : Variable} {v : BitVec 64}
    (same : mach.memory = middle.memory)
    (low : slot.type.registerSize.toNat ≤ slot.offset.toInt) (high : slot.offset.toInt ≤ size)
    (held : Word.low slot.type.registerSize.toNat v =
      atCall.argument (atCall.reg .rsp) index slot.type) :
    let next := { mach with
      memory := mach.memory.store (atCall.frameAddress slot.offset)
        slot.type.registerSize.toNat v }
    Inside atCall size next ∧ Copied atCall index slot middle next := by
  have others : ∀ byte,
      ¬ Memory.covers (atCall.frameAddress slot.offset) slot.type.registerSize.toNat byte →
      mach.memory.store (atCall.frameAddress slot.offset) slot.type.registerSize.toNat v byte =
        mach.memory byte := fun byte outside => Memory.store_apart outside
  exact ⟨inside.stored _ low high others, (Memory.load_store _ _ _ _).trans held,
    fun byte outside => (others byte outside).trans (congrFun same byte)⟩

theorem Inside.wrote (scratch : r.family = .r11) (wrote : Wrote r v mach next) :
    Inside atCall size next where
  fits := inside.fits
  base := by rw [wrote.others _ (by rw [scratch]; decide), inside.base]
  registers fam stack base other := by
    rw [wrote.others _ (scratch ▸ other), inside.registers _ stack base other]
  above byte beyond := by rw [wrote.memory, inside.above byte beyond]

theorem Inside.load_incoming (narrow : bytes ≤ 8)
    (arrived : (atCall.reg .rsp).toNat + 8 * (index + 1) ≤ 2 ^ 64) :
    mach.memory.load (slotAddress (atCall.reg .rsp) index) bytes =
      atCall.memory.load (slotAddress (atCall.reg .rsp) index) bytes := by
  refine Memory.load_congr (fun byte covered => inside.above byte ?_) (by omega)
  have place : (slotAddress (atCall.reg .rsp) index).toNat =
      (atCall.reg .rsp).toNat + 8 * index := by
    rw [slotAddress, BitVec.toNat_add, BitVec.toNat_ofNat]
    omega
  rw [Memory.covers_iff (by omega)] at covered
  omega

end

section

variable {index : Nat} {slot : Variable}

theorem covers_frameSlot (inside : Inside atCall size mach) (scalar : slot.type.isScalar = true)
    (low : slot.frameSlot.bytes ≤ slot.offset.toInt) (high : slot.offset.toInt ≤ size)
    {byte : BitVec 64} :
    Memory.covers (atCall.frameAddress slot.offset) slot.type.registerSize.toNat byte ↔
      slot.frameSlot.covers (byte.toNat - (mach.reg .rbp).toNat) := by
  obtain ⟨bytes, natural, narrow⟩ := Ty.bytes_of_isScalar scalar
  have same : slot.frameSlot.bytes = slot.type.registerSize := bytes
  have offset : slot.frameSlot.offset = slot.offset := rfl
  rw [inside.covers_slot (by omega) high, FrameSlot.covers, same, offset]
  omega

theorem copy_lane_runs (world : World) (upper : Family → BitVec 64)
    (inside : Inside atCall size mach) (scalar : slot.type.isScalar = true)
    (low : slot.type.registerSize.toNat ≤ slot.offset.toInt) (high : slot.offset.toInt ≤ size)
    (found : Lane.all[index]? = some lane) :
    ∃ next, enter world upper (copyArgument index slot) mach = some next ∧ Inside atCall size next ∧
      Copied atCall index slot mach next := by
  have listed := List.mem_of_getElem? found
  have working := Lane.register_working listed (Ty.inPool_of_isScalar scalar)
  obtain ⟨base, scratch⟩ := Lane.register_aside slot.type listed
  have held : Word.low slot.type.registerSize.toNat (mach.reg (lane.register slot.type).family) =
      atCall.argument (atCall.reg .rsp) index slot.type := by
    rw [argument_lane found, view, inside.registers _ working.aside base scratch]
    rfl
  have copied := copied_of_stored inside rfl low high held
  rw [← inside.address_slot world] at copied
  refine ⟨_, ?_, copied⟩
  simp only [copyArgument, found]
  exact enter_store world upper mach working

theorem copy_stack_runs (world : World) (upper : Family → BitVec 64)
    (inside : Inside atCall size mach) (scalar : slot.type.isScalar = true)
    (low : slot.type.registerSize.toNat ≤ slot.offset.toInt) (high : slot.offset.toInt ≤ size)
    (none : Lane.all[index]? = none)
    (arrived : (atCall.reg .rsp).toNat + 8 * (index + 1) ≤ 2 ^ 64) :
    ∃ next, enter world upper (copyArgument index slot) mach = some next ∧ Inside atCall size next ∧
      Copied atCall index slot mach next := by
  obtain ⟨_, natural, narrow⟩ := Ty.bytes_of_isScalar scalar
  have working := Register.scratch_working (Ty.width_of_isScalar scalar)
  have found : mach.read world slot.type.registerSize
      (.mem slot.type.registerSize (incomingSlot index)) = some (mach.memory.load
        (slotAddress (atCall.reg .rsp) index) slot.type.registerSize.toNat) := by
    rw [← inside.address_incoming world]
    exact if_pos (beq_self_eq_true _)
  obtain ⟨middle, loaded, wrote⟩ := step_mov world mach working found
  have still := inside.wrote rfl wrote
  have held : Word.low slot.type.registerSize.toNat (middle.reg .r11) =
      atCall.argument (atCall.reg .rsp) index slot.type := by
    refine wrote.view.trans ?_
    rw [argument_stack none, inside.load_incoming (by omega) arrived]
    exact Memory.low_load (Nat.le_refl _)
  have copied := copied_of_stored still wrote.memory low high held
  rw [← still.address_slot world] at copied
  refine ⟨_, ?_, copied⟩
  simp only [copyArgument, none]
  exact enter_cons loaded (enter_store world upper middle working)

theorem copy_runs (world : World) (upper : Family → BitVec 64) (inside : Inside atCall size mach)
    (scalar : slot.type.isScalar = true) (low : slot.frameSlot.bytes ≤ slot.offset.toInt)
    (high : slot.offset.toInt ≤ size)
    (arrived : (atCall.reg .rsp).toNat + 8 * (index + 1) ≤ 2 ^ 64) :
    ∃ next, enter world upper (copyArgument index slot) mach = some next ∧ Inside atCall size next ∧
      Copied atCall index slot mach next := by
  have narrower : slot.type.registerSize.toNat ≤ slot.offset.toInt := by
    obtain ⟨bytes, natural, _⟩ := Ty.bytes_of_isScalar scalar
    have same : slot.frameSlot.bytes = slot.type.registerSize := bytes
    omega
  cases found : Lane.all[index]? with
  | some lane => exact copy_lane_runs world upper inside scalar narrower high found
  | none => exact copy_stack_runs world upper inside scalar narrower high found arrived

end

theorem copies_run (world : World) (upper : Family → BitVec 64) (inside : Inside atCall size mach)
    (scalar : ∀ slot ∈ slots, slot.type.isScalar = true)
    (within : ∀ slot ∈ slots, slot.frameSlot.bytes ≤ slot.offset.toInt ∧ slot.offset.toInt ≤ size)
    (apart : (slots.map Variable.frameSlot).Pairwise FrameSlot.Disjoint)
    (arrived : (atCall.reg .rsp).toNat + 8 * (index + slots.length) ≤ 2 ^ 64) :
    ∃ next, enter world upper (copyArguments index slots) mach = some next ∧
      Inside atCall size next ∧ (∀ pos slot, slots[pos]? = some slot →
        next.memory.load (atCall.frameAddress slot.offset) slot.type.registerSize.toNat =
        atCall.argument (atCall.reg .rsp) (index + pos) slot.type) ∧
      ∀ byte,
      (∀ slot ∈ slots, ¬ Memory.covers (atCall.frameAddress slot.offset)
        slot.type.registerSize.toNat byte) → next.memory byte = mach.memory byte := by
  induction slots generalizing mach index with
  | nil => exact ⟨mach, rfl, inside, by simp, fun _ _ => rfl⟩
  | cons slot rest ih =>
    rw [List.length_cons] at arrived
    obtain ⟨own, scalar⟩ := List.forall_mem_cons.mp scalar
    obtain ⟨⟨low, high⟩, within⟩ := List.forall_mem_cons.mp within
    obtain ⟨clear, apart⟩ := List.pairwise_cons.mp apart
    have here : (atCall.reg .rsp).toNat + 8 * (index + 1) ≤ 2 ^ 64 := by omega
    have there : (atCall.reg .rsp).toNat + 8 * (index + 1 + rest.length) ≤ 2 ^ 64 := by omega
    obtain ⟨middle, first, still, copied⟩ := copy_runs world upper inside own low high here
    obtain ⟨next, others, ends, holds, kept⟩ := ih still scalar within apart there
    refine ⟨next, enter_join first others, ends, fun pos other listed => ?_, fun byte outside => ?_⟩
    · cases pos with
      | zero =>
        obtain rfl := Option.some.inj listed
        refine (Memory.load_congr (fun byte covered => kept byte fun other mem => ?_) ?_).trans
          copied.holds
        · intro also
          have bounds := within other mem
          rw [covers_frameSlot still own low high] at covered
          rw [covers_frameSlot still (scalar other mem) bounds.1 bounds.2] at also
          exact clear _ (List.mem_map_of_mem mem) _ ⟨covered, also⟩
        · obtain ⟨_, natural, narrow⟩ := Ty.bytes_of_isScalar own
          omega
      | succ pos =>
        rw [holds pos other listed, Nat.add_right_comm, Nat.add_assoc]
    · obtain ⟨here, there⟩ := List.forall_mem_cons.mp outside
      exact (kept byte there).trans (copied.others byte here)

theorem entered_join (before : atCall.entered world upper back first = some middle)
    (after : enter world upper second middle = some next) :
    atCall.entered world upper back (first ++ second) = some next := by
  obtain ⟨called, pushed, ran⟩ := Option.bind_eq_some_iff.mp before
  rw [entered, pushed]
  exact enter_join ran after

end Machine

namespace Method.Built

variable {method : Method} {env : Env} {code : Code} {next : Frame} {slots : List FrameSlot}
  {saved : List SavedSlot} {size : Int64} {body : Code} {after : Frame}

section

variable (built : method.Built env code next slots saved size body after)

include built

theorem saved_named :
    ∀ slot ∈ saved, ∃ fam, slot.register = ⟨fam, 8⟩ ∧ fam.isCalleeSaved = true := by
  intro slot mem
  have named : slot.register ∈ next.savedFamilies.map (⟨·, 8⟩) :=
    built.listed ▸ List.mem_map_of_mem mem
  obtain ⟨fam, noted, same⟩ := List.mem_map.mp named
  refine ⟨fam, same.symm, (lowerBody_records built.lowered).notes.needed (by simp) fam ?_⟩
  rw [Frame.savedFamilies, built.noted, List.mem_mergeSort] at noted
  exact noted

/-- The slots of the parameters come first in the frame. -/
theorem hold_within (hold : Hold 0 method.parameters homes)
    (positive : 0 < env.stackAlignment.toInt) (shadowed : 0 ≤ env.shadowSpace.toInt)
    (small : method.extent next + env.shadowSpace.toInt < 2 ^ 62)
    (fits : leastPower (method.extent next + env.shadowSpace.toInt) + env.stackAlignment.toInt ≤
      2 ^ 63) :
    (homes.map Variable.frameSlot).Pairwise FrameSlot.Disjoint ∧
      ∀ slot ∈ homes, slot.frameSlot.bytes ≤ slot.offset.toInt ∧
      slot.offset.toInt ≤ size.toInt := by
  obtain ⟨_, _, room, _⟩ := built.laid positive shadowed small fits
  have reach : Need.extent 0 (parameterNeeds method.parameters) ≤ method.extent next := by
    rw [extent, needs, List.append_assoc, Need.extent_append]
    exact Need.le_extent _ _
  exact hold.within (by omega) (by omega)

/-- Entering a method copies each argument to the slot of its parameter. -/
theorem receives {params : Code} {homes : List Variable} (hold : Hold 0 method.parameters homes)
    (copies : params = copyArguments 0 homes) (positive : 0 < env.stackAlignment.toInt)
    (shadowed : 0 ≤ env.shadowSpace.toInt)
    (small : method.extent next + env.shadowSpace.toInt < 2 ^ 62)
    (fits : leastPower (method.extent next + env.shadowSpace.toInt) + env.stackAlignment.toInt ≤
      2 ^ 63)
    (world : World) (upper : Family → BitVec 64) (back : BitVec 64) {atCall : Machine}
    (room : size.toInt + 16 ≤ atCall.room)
    (arrived : (atCall.reg .rsp).toNat + 8 * method.parameters.length ≤ 2 ^ 64) :
    ∃ inside, atCall.entered world upper back (entryCode env.signature.label size saved ++ params) =
        some inside ∧ inside.reg .rbp = atCall.reg .rsp - 16 ∧
      ∀ index slot, homes[index]? = some slot →
      inside.memory.load (inside.address world (.frameSlot slot.offset))
        slot.type.registerSize.toNat = atCall.argument (atCall.reg .rsp) index slot.type := by
  obtain ⟨_, _, enough, _⟩ := built.laid positive shadowed small fits
  have well := built.wellLaid positive shadowed small fits
  have natural : 0 ≤ method.extent next := Need.le_extent 0 _
  obtain ⟨pairwise, within⟩ := built.hold_within hold positive shadowed small fits
  have count : homes.length = method.parameters.length := by
    simpa using congrArg List.length hold.types
  obtain ⟨opened, entered, inside⟩ :=
    opened world upper env.signature.label back (by omega) room
  obtain ⟨kept, saves, inside⟩ := saves_run_inside world upper inside built.saved_named
    fun slot mem => by
      have bounds := well.within slot.frameSlot
        (List.mem_append_right _ (List.mem_map_of_mem mem))
      have offset : slot.frameSlot.offset.toInt = slot.offset.toInt := rfl
      exact ⟨bounds.1, by omega⟩
  have reach : (atCall.reg .rsp).toNat + 8 * (0 + homes.length) ≤ 2 ^ 64 := by omega
  obtain ⟨last, ran, inside, holds, _⟩ := copies_run world upper inside hold.scalar within
    pairwise reach
  refine ⟨last, ?_, inside.base, fun index slot listed => ?_⟩
  · rw [copies, entryCode, List.cons_append, List.append_assoc]
    exact entered_join entered (enter_join saves ran)
  · rw [inside.address_slot, holds index slot listed, Nat.zero_add]

end

end Method.Built
end Nasm64
