import Nasm64.Proofs.Soundness.Method

/-! What comes of a program. When it is typed, the generator fails for reasons of its own only if it runs
out of registers, and what it generates mentions registers that exist. -/
namespace Nasm64

open Lower Attempt

namespace Method

variable {typed : Prop} {table : SymbolTable} {method : Method}

/-- What keeps a method from being answered for: a stack that cannot be aligned, or a frame that is too
large. -/
def Hinders (settings : Settings) (method : Method) : Fault → Prop
  | .prependToInline => False
  | .zeroAlignment => settings.stackAlignment = 0
  | .endlessFrame => 2 ^ 62 < method.reach + max settings.shadowSpace.toInt 0

theorem generate_outcome (fits : typed → method.Typed table) (cfg : Settings) (idx : Nat) :
    match method.generate table cfg idx with
    | .ok output => ∃ labels, output.data.Backs labels ∧ Code.Proper typed labels output.code
    | .error (.failure failure) =>
      typed → failure.kind ≠ .internal ∨ (Halt.failure failure).Exhausts
    | .error (.fault fault) => method.Hinders cfg fault := by
  let env : Env := ⟨idx, method.signature, table, some cfg⟩
  have ran := lower_outcome (show env.signature.result = method.result from rfl) fits
  unfold generate
  simp only [ReaderT.run, StateT.run, bind, Except.bind]
  cases outcome : method.lower env {} with
  | ok pair =>
    rw [outcome] at ran
    exact ran
  | error halt =>
    rw [outcome] at ran
    rcases ran with permitted | ⟨rfl, large⟩
    · cases halt with
      | failure => exact permitted
      | fault reason =>
        obtain ⟨rfl, zero⟩ := permitted
        exact zero
    · exact large

end Method

namespace Program

variable {typed : Prop} {program : Program}

/-- Each method of a program that is generated reads from labels of the common data, and these are
hashes of what stands there. Otherwise one of the methods fails, or it cannot be answered for. -/
theorem generate_outcome (fits : typed → program.Typed) (cfg : Settings) :
    match program.generate cfg with
    | .ok asm => asm.data.labels.Nodup ∧
      ∀ code ∈ asm.methods, ∃ labels, asm.data.Backs labels ∧ Code.Proper typed labels code
    | .error (.failure failure) =>
      typed → failure.kind ≠ .internal ∨ (Halt.failure failure).Exhausts
    | .error (.fault fault) => ∃ method ∈ program.methods, method.Hinders cfg fault := by
  have each {table : SymbolTable} (declared : program.symbolTable = .ok table) {job : Method × Nat}
      (mem : job ∈ program.methods.zipIdx) : typed → job.1.Typed table :=
    fun is => fits is table declared job.1 (List.fst_mem_of_mem_zipIdx mem)
  cases outcome : program.generate cfg with
  | ok asm =>
    obtain ⟨table, entry, outputs, declared, lowered, _, methods, _, data⟩ := generate_eq_ok outcome
    refine ⟨?_, ?_⟩
    · rw [data]
      exact DataSection.nodup_labels_foldl List.nodup_nil
    · rw [methods]
      refine List.forall_mem_map.mpr fun output mem => ?_
      have made : List.Forall₂ (fun output (job : Method × Nat) =>
          job.1.generate table cfg job.2 = .ok output) outputs program.methods.zipIdx :=
        (lowerMethods_eq_ok lowered).flip
      obtain ⟨job, listed, generated⟩ := exists_partner made (promote_perm.mem_iff.mp mem)
      have ran := Method.generate_outcome (each declared listed) cfg job.2
      rw [generated] at ran
      obtain ⟨labels, backed, proper⟩ := ran
      refine ⟨labels, fun label used => ⟨?_, (backed label used).2⟩, proper⟩
      rw [data]
      exact DataSection.mem_labels_foldl.mpr (.inr ⟨output, mem, (backed label used).1⟩)
  | error halt =>
    rcases generate_eq_error outcome with failed | ⟨_, rfl⟩ | ⟨table, declared, job, mem, failed⟩
    · obtain ⟨pos, error, rfl⟩ := symbolTable_eq_error failed
      exact fun _ => .inl (by simp [Failure.kind, Problem.kind, Cause.kind])
    · exact fun _ => .inl (by simp [Failure.kind, Problem.kind])
    · have ran := Method.generate_outcome (each declared mem) cfg job.2
      rw [failed] at ran
      cases halt with
      | failure => exact ran
      | fault reason => exact ⟨job.1, List.fst_mem_of_mem_zipIdx mem, ran⟩

end Program

/-- The registers that the operands of some code mention. -/
def Code.registers (code : Code) : List Register :=
  code.flatMap fun line => line.operands.flatMap Operand.registers

theorem Code.Proper.valid {typed : Prop} {labels : List String} {code : Code}
    (proper : Code.Proper typed labels code) (is : typed) :
    ∀ r ∈ Code.registers code, r.valid = true := by
  intro r mem
  obtain ⟨line, listed, inside⟩ := List.mem_flatMap.mp mem
  obtain ⟨opnd, used, named⟩ := List.mem_flatMap.mp inside
  exact (proper line listed opnd used).named is r named

end Nasm64
