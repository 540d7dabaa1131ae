import Nasm64.Proofs.Passing.Entry
import Nasm64.Proofs.Soundness.Statement

/-! What comes of a method. A typed one is lowered to code without names that mean nothing, or there is
a reason that is permitted, or its frame is too large. -/
namespace Nasm64

open Lower Code Register SavedSlot

namespace Method

variable {typed : Prop} {env : Env} {method : Method} {code body : Code} {after next : Frame}

theorem lowerBody_outcome (plain : env.signature.result.isStruct = false)
    (fits : typed → Stmt.BlockTyped env.table env.signature.result method.parameterScope
      (method.body.getD [])) :
    match method.lowerBody env {} with
    | .ok (body, after) => ∃ labels, after.data.Backs labels ∧ Proper typed labels body
    | .error halt => halt.Permitted ⟨typed, env, []⟩ := by
  have empty : Frame.Shows ⟨typed, env, []⟩ [] {} := ⟨⟨by simp, fun _ => rfl⟩, nofun⟩
  obtain ⟨later, block⟩ := Stmt.lowerBlock_ends (c := ⟨typed, env, method.parameterScope⟩)
    (fun _ => plain) true (method.body.getD []) fits
  have ends : Ends ⟨typed, env, []⟩ [] later method.lowerBodyUnchecked (Proper typed) := by
    have entered : Ends ⟨typed, env, []⟩ [] method.parameterScope
        (lowerParameters method.name 0 method.parameters) (Proper typed) := by
      rw [parameterScope, ← List.append_nil (List.reverse _)]
      exact (lowerParameters_meets method.name 0 method.parameters).ends
    refine .bind entered fun labels params _ proper => ?_
    refine .bind (block labels) fun more body grown rest => .pure ?_
    exact proper_append.mpr ⟨proper.mono grown, rest⟩
  have ran := ends empty
  rw [← lowerBody_eq_unchecked] at ran
  cases outcome : method.lowerBody env {} with
  | error halt => rwa [outcome] at ran
  | ok =>
    rw [outcome] at ran
    obtain ⟨more, _, shown, proper⟩ := ran
    exact ⟨more, shown.known, proper⟩

end Method

namespace Lower

variable {typed : Prop} {labels : List String} {saved : List SavedSlot} {body : Code}

theorem surround_proper (named : ∀ slot ∈ saved, slot.register.valid = true)
    (proper : Proper typed labels body) (label exit : String) (size : Int64) :
    Proper typed labels (surround label exit size saved body) := by
  have frame : framePointer.Named typed := fun _ => rfl
  have stack : stackPointer.Named typed := fun _ => rfl
  have each (slot : SavedSlot) (mem : slot ∈ saved) :
      slot.save.Proper typed labels ∧ slot.restore.Proper typed labels := by
    have held : slot.register.Named typed := fun _ => named slot mem
    unfold save restore
    split <;> simp [held]
  have saves : Proper typed labels (saved.map save) :=
    List.forall_mem_map.mpr fun slot mem => (each slot mem).1
  have restores : Proper typed labels (saved.reverse.map restore) :=
    List.forall_mem_map.mpr fun slot mem => (each slot (List.mem_reverse.mp mem)).2
  simp [surround, frame, stack, saves, restores, proper, -List.map_reverse]

/-- Small slots take no more than their bytes and their padding. -/
theorem Need.extent_le (start : Int) (small : ∀ need ∈ needs, need.bytes + need.step ≤ 32) :
    extent start needs ≤ start + 32 * needs.length := by
  induction needs generalizing start with
  | nil => simp [extent]
  | cons need rest ih =>
    obtain ⟨here, others⟩ := List.forall_mem_cons.mp small
    have placed : need.place start ≤ start + 32 := by
      have padded := Int.ediv_mul_le (start + need.bytes + (need.step - 1))
        (by have := need.step_pos; omega : need.step ≠ 0)
      unfold place Word.roundUp
      omega
    have rested : extent start (need :: rest) ≤ need.place start + 32 * rest.length :=
      ih (need.place start) others
    rw [List.length_cons]
    omega

theorem savedNeed_small (fam : Family) : (savedNeed fam).bytes + (savedNeed fam).step ≤ 32 := by
  unfold savedNeed
  split <;> decide

end Lower

namespace Method

variable {typed : Prop} {env : Env} {method : Method} {body : Code} {after last : Frame}
  {saved : List SavedSlot}

/-- More than the slots of a method take: those that its tree asks for, and room for all the registers
that callers rely on. -/
def reach (method : Method) : Int := Need.extent 0 method.needs + 288

theorem position_le_reach (lowered : Yields method.lowerBody env {} body after)
    (reserved : Yields (after.savedFamilies.mapM preserve) env after saved last)
    (small : method.reach ≤ 2 ^ 62) :
    0 ≤ last.position.toInt ∧ last.position.toInt ≤ method.reach := by
  have notes := (lowerBody_records lowered).notes
  have nine : after.savedFamilies.length ≤ 9 := by
    rw [Frame.savedFamilies, List.length_mergeSort]
    exact Family.length_le_of_calleeSaved (notes.distinct List.nodup_nil) (notes.needed (by simp))
  obtain ⟨slots, hands, asked⟩ := method.lowerBody_provides lowered
  have natural := Need.le_extent 0 method.needs
  unfold reach at *
  obtain ⟨start, _⟩ := hands.laid (Int.le_refl _) (by rw [asked]; simp only [Int64.toInt_zero]; omega)
  rw [asked] at start
  simp only [Int64.toInt_zero] at start
  obtain ⟨more, listed, _⟩ := preserveAll_handsOut reserved
  have needs : (saved.map frameSlot).map (·.toNeed) = after.savedFamilies.map savedNeed := by
    have families := congrArg (List.map fun r => savedNeed r.family) listed
    rw [List.map_map, List.map_map] at families
    rw [List.map_map]
    exact families
  have room : Need.extent after.position.toInt (after.savedFamilies.map savedNeed) ≤
      after.position.toInt + 288 := by
    have bound := Need.extent_le after.position.toInt
      (List.forall_mem_map.mpr fun fam (_ : fam ∈ after.savedFamilies) => savedNeed_small fam)
    rw [List.length_map] at bound
    omega
  obtain ⟨reached, _⟩ := more.laid (by omega) (by rw [needs]; omega)
  have least := Need.le_extent after.position.toInt (after.savedFamilies.map savedNeed)
  rw [needs] at reached
  omega

theorem calleeSaved_valid : ∀ fam ∈ Family.calleeSaved, (⟨fam, 8⟩ : Register).valid = true := by
  decide

/-- A method that is lowered has proper code. Otherwise there is a reason that is permitted, or its frame
is larger than the largest power of two. -/
theorem lower_outcome (own : env.signature.result = method.result)
    (fits : typed → method.Typed env.table) :
    match method.lower env {} with
    | .ok (code, next) => ∃ labels, next.data.Backs labels ∧ Proper typed labels code
    | .error halt => halt.Permitted ⟨typed, env, []⟩ ∨
      halt = .fault .endlessFrame ∧ 2 ^ 62 < method.reach + max env.shadowSpace.toInt 0 := by
  cases byValue : method.result.isStruct || method.result.isArray with
  | true =>
    rw [lower, byValue]
    exact .inl fun _ => .inl (by simp [Failure.kind, Problem.kind])
  | false =>
    have plain : env.signature.result.isStruct = false := by
      rw [own]
      exact (Bool.or_eq_false_iff.mp byValue).1
    have ran := lowerBody_outcome plain fun is => show Stmt.BlockTyped env.table env.signature.result
      method.parameterScope (method.body.getD []) from own.symm ▸ fits is
    cases outcome : method.lower env {} with
    | ok pair =>
      obtain ⟨code, next⟩ := pair
      obtain ⟨slots, saved, size, body, after, built⟩ := lower_built outcome
      rw [show method.lowerBody env {} = .ok (body, after) from built.lowered] at ran
      obtain ⟨labels, backed, proper⟩ := ran
      have named : ∀ slot ∈ saved, slot.register.valid = true := by
        intro slot mem
        obtain ⟨fam, same, relied⟩ := built.saved_named slot mem
        rw [same]
        exact calleeSaved_valid fam (Family.mem_calleeSaved relied)
      simp only [built.stored, built.surrounds]
      exact ⟨labels, backed, surround_proper named proper _ _ _⟩
    | error halt =>
      rw [lower, byValue] at outcome
      simp only [Bool.false_eq_true, if_false] at outcome
      cases lowered : method.lowerBody env {} with
      | error reason =>
        rw [bind_eq, lowered] at outcome
        cases outcome
        rw [lowered] at ran
        exact .inl ran
      | ok pair =>
        obtain ⟨body, after⟩ := pair
        have lowered : Yields method.lowerBody env {} body after := lowered
        obtain ⟨saved, last, reserved⟩ := reserveSaved_succeeds env after
        obtain ⟨_, final, warned⟩ := idle_warnUnused.succeeds env last
        have read_ : Yields read env final env final := yields_read.mpr ⟨rfl, rfl⟩
        have got : Yields get env final final final := yields_get.mpr ⟨rfl, rfl⟩
        rw [lowered.bind_eq, reserved.bind_eq, warned.bind_eq, read_.bind_eq, got.bind_eq] at outcome
        cases none : frameSize? final.position env.shadowSpace env.stackAlignment with
        | some size =>
          rw [none] at outcome
          cases outcome
        | none =>
          rw [none] at outcome
          cases outcome
          refine .inr ⟨rfl, ?_⟩
          by_contra small
          obtain ⟨_, _, start, reserving⟩ := yields_bind.mp reserved
          obtain ⟨rfl, rfl⟩ := yields_get.mp start
          obtain ⟨natural, reached⟩ := position_le_reach lowered reserving (by omega)
          rw [← idle_warnUnused.still warned] at natural reached
          have large := lt_of_frameSize?_eq_none none natural
          omega

end Method
end Nasm64
