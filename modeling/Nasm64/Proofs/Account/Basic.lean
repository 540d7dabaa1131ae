import Nasm64.Proofs.Emission.Kept

/-! What code asks of its method: the families that it changes and the caller relies on have to be
noted. The labels that it calls are kept account of as well. -/
namespace Nasm64

open Line

def Line.isStraight : Line → Bool
  | label _ | comment _ | unary .jmp _ | unary .je _ | plain .ret => false
  | _ => true

theorem Line.isStraight_of_isQuiet {line : Line} (quiet : line.isQuiet = true) :
    line.isStraight = true := by
  unfold isStraight
  split
  · cases quiet
  · cases quiet
  · rename_i opnd
    cases opnd <;> cases quiet
  · rename_i opnd
    cases opnd <;> cases quiet
  · cases quiet
  · rfl

def Line.callee? : Line → Option String
  | unary .call operand => some operand.text
  | _ => none

def Code.callees (code : Code) : List String := code.filterMap Line.callee?

@[simp] theorem Code.callees_append (first second : Code) :
    Code.callees (first ++ second) = first.callees ++ second.callees := List.filterMap_append

theorem Line.callee?_of_isQuiet {line : Line} (quiet : line.isQuiet = true) : line.callee? = none := by
  unfold callee?
  split
  · rename_i opnd
    cases opnd <;> cases quiet
  · rfl

theorem Family.isCalleeSaved_of_isVolatile {family : Family} (overwritten : family.isVolatile = true) :
    family.isCalleeSaved = false := by
  cases family with
  | xmm idx => revert idx; decide
  | _ => first | rfl | cases overwritten

namespace Lower

/-- Families are only added to those noted, each of them once and none but those that the caller
relies on. -/
structure Notes (before after : List Family) : Prop where
  kept : ∀ family ∈ before, family ∈ after
  needed : (∀ family ∈ before, family.isCalleeSaved = true) →
    ∀ family ∈ after, family.isCalleeSaved = true
  distinct : before.Nodup → after.Nodup

namespace Notes

variable {before mid after : List Family}

theorem refl (noted : List Family) : Notes noted noted := ⟨fun _ => id, id, id⟩

theorem trans (first : Notes before mid) (second : Notes mid after) : Notes before after :=
  ⟨fun family mem => second.kept family (first.kept family mem), second.needed ∘ first.needed,
    second.distinct ∘ first.distinct⟩

theorem of_eq (same : after = before) : Notes before after := same ▸ refl after

theorem touch (frame : Frame) (family : Family) : Notes frame.touched (frame.touch family).touched := by
  unfold Frame.touch
  split
  · rename_i added
    simp only [Bool.and_eq_true, Bool.not_eq_true', List.contains_eq_mem, decide_eq_false_iff_not]
      at added
    refine ⟨fun _ => List.mem_cons_of_mem _, fun needed other mem => ?_,
      List.nodup_cons.mpr ∘ .intro added.2⟩
    rcases List.mem_cons.mp mem with rfl | mem
    · exact added.1
    · exact needed other mem
  · exact refl _

end Notes

/-- Code may change a family: the caller does not rely on it, or it is noted, or it is that of a
result. -/
def Excused (noted results : List Family) (family : Family) : Prop :=
  family.isCalleeSaved = true → family ∈ noted ∨ family ∈ results

namespace Excused

variable {noted after results wider : List Family} {family : Family}

theorem result (member : family ∈ results) : Excused noted results family := fun _ => .inr member

theorem of_not_saved (free : family.isCalleeSaved = false) : Excused noted results family :=
  fun saved => absurd saved (by simp [free])

theorem of_volatile (overwritten : family.isVolatile = true) : Excused noted results family :=
  of_not_saved (Family.isCalleeSaved_of_isVolatile overwritten)

theorem touched (frame : Frame) (family : Family) :
    Excused (frame.touch family).touched results family := by
  intro saved
  unfold Frame.touch
  split
  · exact .inl List.mem_cons_self
  · simp_all

theorem mono (excused : Excused noted results family) (kept : ∀ family ∈ noted, family ∈ after)
    (known : ∀ family ∈ results, Excused after wider family) : Excused after wider family := by
  intro saved
  rcases excused saved with member | member
  · exact .inl (kept family member)
  · exact known family member saved

theorem later (notes : Notes noted after) (excused : Excused noted results family) :
    Excused after results family := excused.mono notes.kept fun _ => result

end Excused

/-- Straight code without calls that changes no families but those of a kind. -/
def CallFree (changes : Family → Prop) (code : Code) : Prop :=
  ∀ line ∈ code, line.callee? = none ∧ line.isStraight = true ∧ ∀ family ∈ line.writes, changes family

namespace CallFree

variable {changes wider : Family → Prop} {first second : Code}

theorem nil : CallFree changes [] := List.forall_mem_nil _

theorem append (before : CallFree changes first) (after : CallFree changes second) :
    CallFree changes (first ++ second) := List.forall_mem_append.mpr ⟨before, after⟩

theorem cons (head : CallFree changes [line]) (tail : CallFree changes second) :
    CallFree changes (line :: second) := head.append tail

theorem flatten {codes : List Code} (free : ∀ code ∈ codes, CallFree changes code) :
    CallFree changes codes.flatten := by
  intro line mem
  obtain ⟨code, listed, inside⟩ := List.mem_flatten.mp mem
  exact free code listed line inside

theorem binary (plain : mn ≠ .xchg) (changed : changes dst.family) :
    CallFree changes [.binary mn (.reg dst) src] := by
  intro line mem
  obtain rfl := List.mem_singleton.mp mem
  refine ⟨rfl, rfl, fun family written => ?_⟩
  unfold writes at written
  split at written <;> grind

theorem callees (free : CallFree changes first) : first.callees = [] :=
  List.filterMap_eq_nil_iff.mpr fun line mem => (free line mem).1

end CallFree

theorem Quiet.callFree {changes : Family → Prop} (quiet : Quiet families code)
    (includes : ∀ family ∈ families, changes family) : CallFree changes code := fun line mem =>
  have ⟨silent, writes⟩ := quiet line mem
  ⟨callee?_of_isQuiet silent, isStraight_of_isQuiet silent,
    fun family written => includes family (writes family written)⟩

section

variable {r : Register} {changes : Family → Prop}

theorem pushCode_callFree (stack : changes .rsp) (changed : changes r.family) :
    CallFree changes (pushCode r) := by
  unfold pushCode
  split <;> simp_all [CallFree, callee?, isStraight, writes, Mnemonic.isTest,
    Register.stackPointer]

theorem popCode_callFree (stack : changes .rsp) (changed : changes r.family) :
    CallFree changes (popCode r) := by
  unfold popCode
  split <;> simp_all [CallFree, callee?, isStraight, writes, Mnemonic.isTest,
    Register.stackPointer]

theorem saveCode_callFree (stack : changes .rsp) (changed : ∀ r ∈ saved, changes r.family) :
    CallFree changes (saveCode saved) := by
  refine .flatten fun code mem => ?_
  obtain ⟨r, listed, rfl⟩ := List.mem_map.mp mem
  exact pushCode_callFree stack (changed r listed)

theorem restoreCode_callFree (stack : changes .rsp) (changed : ∀ r ∈ saved, changes r.family) :
    CallFree changes (restoreCode saved) := by
  refine .flatten fun code mem => ?_
  obtain ⟨r, listed, rfl⟩ := List.mem_map.mp mem
  exact popCode_callFree stack (changed r (List.mem_reverse.mp listed))

theorem store_callFree (size : Int) (addr : Address) (src : Register) :
    CallFree changes (store (.mem size addr) src) := by
  unfold store Conversion.floatMove
  split
  · split <;> simp [CallFree, callee?, isStraight, writes]
  · simp [CallFree, mov, callee?, isStraight, writes]

end

/-- What straight code asks of its method. The families that it changes are excused by those noted
after it and by its results, and it makes these calls, all of them to labels that are known. -/
structure Accounts (before results : List Family) (calls : List (Option String)) (code : Code)
    (after : List Family) : Prop where
  notes : Notes before after
  excused : ∀ line ∈ code, ∀ family ∈ line.writes, Excused after results family
  callees : code.callees.map some = calls
  straight : ∀ line ∈ code, line.isStraight = true

namespace Accounts

variable {before mid after results wider : List Family} {calls more : List (Option String)}
  {first second : Code}

theorem callFree (notes : Notes before after) (free : CallFree (Excused after results) first) :
    Accounts before results [] first after :=
  ⟨notes, fun line mem => (free line mem).2.2, by simp [free.callees],
    fun line mem => (free line mem).2.1⟩

theorem nil (notes : Notes before after) : Accounts before results [] [] after := callFree notes .nil

theorem append (ahead : Accounts before results calls first mid)
    (behind : Accounts mid results more second after) :
    Accounts before results (calls ++ more) (first ++ second) after where
  notes := ahead.notes.trans behind.notes
  excused := by
    intro line mem family written
    rcases List.mem_append.mp mem with mem | mem
    · exact (ahead.excused line mem family written).later behind.notes
    · exact behind.excused line mem family written
  callees := by rw [Code.callees_append, List.map_append, ahead.callees, behind.callees]
  straight := List.forall_mem_append.mpr ⟨ahead.straight, behind.straight⟩

theorem ending (ahead : Accounts before results calls first after)
    (free : CallFree (Excused after results) second) :
    Accounts before results calls (first ++ second) after := by
  have whole := ahead.append (callFree (.refl _) free)
  rwa [List.append_nil] at whole

theorem leading (free : CallFree (Excused after results) first)
    (behind : Accounts before results calls second after) :
    Accounts before results calls (first ++ second) after where
  notes := behind.notes
  excused := by
    intro line mem
    rcases List.mem_append.mp mem with mem | mem
    · exact (free line mem).2.2
    · exact behind.excused line mem
  callees := by rw [Code.callees_append, free.callees, List.nil_append, behind.callees]
  straight := List.forall_mem_append.mpr ⟨fun line mem => (free line mem).2.1, behind.straight⟩

/-- No caller relies on the stack pointer where it was. -/
theorem reserved (inside : Accounts before results calls first after) (bytes : Int64) :
    Accounts before results calls (reservedCode bytes first) after := by
  have adjusts : ∀ mnemonic : Mnemonic, mnemonic ≠ .xchg → CallFree (Excused after results)
      [.binary mnemonic (.reg .stackPointer) (.imm bytes)] :=
    fun _ plain => .binary plain (.of_not_saved rfl)
  exact (inside.leading (adjusts .sub (by decide))).ending (adjusts .add (by decide))

theorem absorb (accounts : Accounts before results calls first after)
    (known : ∀ family ∈ results, Excused after wider family) :
    Accounts before wider calls first after where
  notes := accounts.notes
  excused := fun line mem family written =>
    (accounts.excused line mem family written).mono (fun _ => id) known
  callees := accounts.callees
  straight := accounts.straight

theorem of_notes (notes : Notes before mid) (accounts : Accounts mid results calls first after) :
    Accounts before results calls first after :=
  ⟨notes.trans accounts.notes, accounts.excused, accounts.callees, accounts.straight⟩

theorem then_notes (accounts : Accounts before results calls first mid)
    (notes : Notes mid after) : Accounts before results calls first after where
  notes := accounts.notes.trans notes
  excused := fun line mem family written => (accounts.excused line mem family written).later notes
  callees := accounts.callees
  straight := accounts.straight

end Accounts

def families (register : Option Register) : List Family :=
  register.elim [] fun register => [register.family]

namespace Frame

variable {frame next : Frame} {r : Register} {family : Family}

def top (frame : Frame) : List Family := families frame.held.head?

@[simp] theorem hold_touched : (frame.hold r).touched = frame.touched := by
  unfold hold
  split <;> rfl

@[simp] theorem unhold_touched : (frame.unhold r next).touched = next.touched := by
  unfold unhold
  split <;> rfl

@[simp] theorem refer_touched : (frame.refer slot).touched = frame.touched := by
  unfold refer
  split <;> rfl

theorem Kept.top (kept : frame.Kept next) : next.top = frame.top := by
  have same : next.held = frame.held := kept.held
  rw [Frame.top, Frame.top, same]

end Frame

end Lower
end Nasm64
