import Nasm64.Proofs.Emission.Expr
import Nasm64.Proofs.Machine.Bracketed

/-! The code of an expression preserves the registers that pending computations hold. -/
namespace Nasm64

open Lower

/-- Whatever a consumer asks for, running the code of an expression leaves every register in use as
it was, but for the one that the result is in and the two scratch registers. Calls may change the
volatile registers, their argument area and the free stack as they like. Only code with calls has to stay
within the bounds of the stack. -/
theorem held_registers_survive {env : Env} {frame next : Frame} {expr : Expr} {demand : Demand}
    {fragment : Lowered} {world : World} {machine after : Machine} (ordinary : frame.Ordinary)
    (usable : demand.IsOrdinary)
    (lowered : Yields (expr.lowering.answer demand) env frame fragment next)
    (sound : Sound env frame.depth (expr.burden env) fragment.code)
    (clear : machine.Clear fragment.code) (ran : machine.run world fragment.code = some after) :
    ∀ family, frame.inUse family = true → family ∉ fragment.results → family ∉ scratchFamilies →
      after.reg family = machine.reg family := by
  intro family held apart working
  obtain ⟨⟨_, bracketed⟩, _⟩ := expr.answer_bracketed ordinary usable lowered
  refine (bracketed.agrees sound clear .none ran).registers family ?_
  rintro ⟨_, unused | scratch | result⟩
  · simp [held] at unused
  · exact working scratch
  · exact apart result

/-- A world whose calls clear everything that they may overwrite. -/
def World.clearing : World where
  label := fun _ => 0
  flags := fun _ _ _ => default
  float := fun _ _ _ => 0
  call := fun _ machine => { machine with reg := fun _ => 0, memory := fun _ => 0 }

/-- A machine with a stack of 4096 bytes and the same number in all other registers. -/
def Machine.sample (number : BitVec 64) : Machine where
  reg := fun family => if family = .rsp then 4096 else if family = .rbp then 8192 else number
  memory := fun _ => 0
  flags := default
  floor := 0
  blocks := []

def pairCall : Expr :=
  .call {} "f" [.number {} 1 (.prim .i64), .number {} 2 (.prim .i64)] (.prim .i64)

/-- An environment that knows `f`, with the given alignment of the stack. -/
def Lower.Env.pairing (alignment : Int64) : Env where
  method := 0
  signature := ⟨"m", [], .void, false, false⟩
  table := ⟨[⟨"f", [.prim .i64, .prim .i64], .prim .i64, true, false⟩]⟩
  settings := some { stackAlignment := alignment }

/-- What a register holds after the code of a fragment ran, from the same number in all registers. -/
def Lowered.leaves? (fragment : Lowered) (family : Family) : Option (BitVec 64) :=
  ((Machine.sample 7).run .clearing fragment.code).map fun machine => machine.reg family

theorem held_register_survives_call :
    ∃ fragment next, Yields (pairCall.lowering.answer .value) (.pairing 16)
        { held := [⟨.rdi, 8⟩, ⟨.r10, 8⟩] } fragment next ∧
      Lowered.leaves? fragment .r10 = some 7 := by
  obtain ⟨fragment, next, lowered, checked⟩ := Yields.of_check (pairCall.lowering.answer .value)
    (.pairing 16) { held := [⟨.rdi, 8⟩, ⟨.r10, 8⟩] }
    (fun fragment => (Lowered.leaves? fragment .r10).isSome &&
      fragment.code.all (fun line => line.frameStore?.isNone) && fragment.results == [.rdi])
    (by decide +kernel)
  simp only [Bool.and_eq_true, List.all_eq_true, beq_iff_eq, Lowered.leaves?, Option.isSome_map,
    Option.isSome_iff_exists] at checked
  obtain ⟨⟨⟨after, ran⟩, storeless⟩, results⟩ := checked
  have clear : (Machine.sample 7).Clear fragment.code := by
    rintro byte ⟨line, member, displacement, size, found, _⟩
    have none := storeless line member
    simp [found] at none
  have usable : Demand.value.IsOrdinary := trivial
  have kept := held_registers_survive (by simp [Frame.Ordinary]; decide) usable lowered
    (.inr ⟨by decide, by decide, by decide +kernel⟩) clear ran .r10 (by decide) (by simp [results])
    (by decide)
  refine ⟨fragment, next, lowered, ?_⟩
  simp only [Lowered.leaves?, ran, Option.map_some, kept]
  rfl

/-- With a negative alignment the argument area shrinks to one slot, and the second argument
overwrites the register saved above it. At the largest alignment the depth overflows inside the area
of another call, and the register is saved where the callee may overwrite it. -/
theorem held_register_lost_in_call :
    (∃ fragment next, Yields (pairCall.lowering.answer .value) (.pairing (-16))
        { held := [⟨.rdi, 8⟩, ⟨.r10, 8⟩] } fragment next ∧
      Lowered.leaves? fragment .r10 = some 2) ∧
    ∃ fragment next, Yields (pairCall.lowering.answer .value) (.pairing 9223372036854775807)
        { held := [⟨.rdi, 8⟩, ⟨.r10, 8⟩], depth := 9223372036854775807 } fragment next ∧
      Lowered.leaves? fragment .r10 = some 0 := by
  constructor
  · obtain ⟨fragment, next, lowered, checked⟩ := Yields.of_check (pairCall.lowering.answer .value)
      (.pairing (-16)) { held := [⟨.rdi, 8⟩, ⟨.r10, 8⟩] }
      (fun fragment => Lowered.leaves? fragment .r10 == some 2) (by decide +kernel)
    exact ⟨fragment, next, lowered, beq_iff_eq.mp checked⟩
  · obtain ⟨fragment, next, lowered, checked⟩ := Yields.of_check (pairCall.lowering.answer .value)
      (.pairing 9223372036854775807)
      { held := [⟨.rdi, 8⟩, ⟨.r10, 8⟩], depth := 9223372036854775807 }
      (fun fragment => Lowered.leaves? fragment .r10 == some 0) (by decide +kernel)
    exact ⟨fragment, next, lowered, beq_iff_eq.mp checked⟩

end Nasm64
