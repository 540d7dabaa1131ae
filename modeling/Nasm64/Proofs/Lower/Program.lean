import Mathlib.Data.List.Perm.Basic
import Nasm64.Lower.Program
import Nasm64.Proofs.Lower.Attempt

/-! What comes of a program, in terms of what comes of its methods. -/
namespace Nasm64.Program

open Lower Attempt

variable {α β : Type} {jobs : List α} {run : α → Except Halt β} {results : List β} {halt : Halt}
  {program : Program} {table : SymbolTable} {cfg : Settings}

theorem concurrently_eq_ok (ran : concurrently jobs run = .ok results) :
    List.Forall₂ (fun job res => run job = .ok res) jobs results := by
  unfold concurrently at ran
  simp only at ran
  split at ran
  · cases ran
  · exact List.forall₂_map_left_iff.mp (mapM_eq_ok ran)

theorem concurrently_eq_error (failed : concurrently jobs run = .error halt) :
    ∃ job ∈ jobs, run job = .error halt := by
  unfold concurrently at failed
  simp only at failed
  split at failed
  · next fault found =>
    cases failed
    obtain ⟨res, mem, faulty⟩ := List.exists_of_findSome?_eq_some found
    obtain ⟨job, listed, rfl⟩ := List.mem_map.mp mem
    unfold fault? at faulty
    split at faulty
    · next outcome =>
      cases faulty
      exact ⟨job, listed, outcome⟩
    · cases faulty
  · obtain ⟨res, mem, same⟩ := mapM_eq_error failed
    obtain ⟨job, listed, rfl⟩ := List.mem_map.mp mem
    exact ⟨job, listed, same⟩

/-- Whichever way the methods are lowered, success means that each of them lowers. -/
theorem lowerMethods_eq_ok (lowered : program.lowerMethods table cfg = .ok outputs) :
    List.Forall₂ (fun job output => Method.generate table cfg job.1 job.2 =
      .ok output) program.methods.zipIdx outputs := by
  unfold lowerMethods at lowered
  simp only at lowered
  split at lowered
  · exact concurrently_eq_ok lowered
  · exact mapM_eq_ok lowered

theorem lowerMethods_eq_error (failed : program.lowerMethods table cfg = .error halt) :
    ∃ job ∈ program.methods.zipIdx, Method.generate table cfg job.1 job.2 = .error halt := by
  unfold lowerMethods at failed
  simp only at failed
  split at failed
  · exact concurrently_eq_error failed
  · exact mapM_eq_error failed

/-- An assembly is put together from the outputs of all methods. -/
theorem generate_eq_ok (generated : program.generate cfg = .ok asm) :
    ∃ table entry outputs, program.symbolTable = .ok table ∧
      program.lowerMethods table cfg = .ok outputs ∧
      (program.methods.findIdx? fun method => method.name == "main") = some entry ∧
      asm.methods = (promote entry outputs).map Method.Output.code ∧ asm.structs = program.structs ∧
      asm.data = (promote entry outputs).foldl (fun data output => data.merge output.data) {} :=
    by
  unfold generate generateBy at generated
  cases declared : program.symbolTable with
  | error halt => simp [declared, bind, Except.bind] at generated
  | ok table =>
    simp only [declared, bind, Except.bind] at generated
    cases located : program.methods.findIdx? fun method => method.name == "main" with
    | none => simp [located] at generated
    | some entry =>
      simp only [located] at generated
      cases lowered : program.lowerMethods table cfg with
      | error halt => simp [lowered] at generated
      | ok outputs =>
        simp only [lowered, pure, Except.pure, Except.ok.injEq] at generated
        subst generated
        exact ⟨table, entry, outputs, rfl, lowered, rfl, rfl, rfl, rfl⟩

/-- A program fails for the signatures of its methods, without an entry method, or like a method. -/
theorem generate_eq_error (failed : program.generate cfg = .error halt) :
    program.symbolTable = .error halt ∨
      (program.methods.findIdx? fun method => method.name == "main") = none ∧
        halt = .failure ⟨{}, .noMain⟩ ∨
      ∃ table, program.symbolTable = .ok table ∧
        ∃ job ∈ program.methods.zipIdx, Method.generate table cfg job.1 job.2 = .error halt := by
  unfold generate generateBy at failed
  cases declared : program.symbolTable with
  | error reason =>
    simp only [declared, bind, Except.bind, Except.error.injEq] at failed
    exact .inl (failed ▸ rfl)
  | ok table =>
    simp only [declared, bind, Except.bind] at failed
    cases located : program.methods.findIdx? fun method => method.name == "main" with
    | none =>
      simp only [located, Except.error.injEq] at failed
      exact .inr (.inl ⟨rfl, failed.symm⟩)
    | some entry =>
      simp only [located] at failed
      cases lowered : program.lowerMethods table cfg with
      | error reason =>
        simp only [lowered, Except.error.injEq] at failed
        subst failed
        exact .inr (.inr ⟨table, rfl, lowerMethods_eq_error lowered⟩)
      | ok outputs => simp [lowered, pure, Except.pure] at failed

theorem generates (declared : program.symbolTable = .ok table)
    (entry : (program.methods.findIdx? fun method => method.name == "main").isSome = true)
    (each : ∀ job ∈ program.methods.zipIdx,
      ∃ output, Method.generate table cfg job.1 job.2 = .ok output) :
    ∃ assembly, program.generate cfg = .ok assembly := by
  cases outcome : program.generate cfg with
  | ok assembly => exact ⟨assembly, rfl⟩
  | error halt =>
    rcases generate_eq_error outcome with failed | ⟨missing, _⟩ | ⟨other, same, job, mem, failed⟩
    · cases declared.symm.trans failed
    · rw [missing] at entry
      cases entry
    · cases declared.symm.trans same
      obtain ⟨output, generated⟩ := each job mem
      cases generated.symm.trans failed

theorem symbolTable_eq_error (failed : program.symbolTable = .error halt) :
    ∃ pos error, halt = .failure ⟨pos, .causedBy (.declare error)⟩ := by
  unfold symbolTable at failed
  generalize program.externals ++ program.methods = methods, ({} : SymbolTable) = table at failed
  induction methods generalizing table with
  | nil => cases failed
  | cons method rest ih =>
    unfold declareAll at failed
    split at failed
    · exact ih _ failed
    · cases failed
      exact ⟨_, _, rfl⟩

/-- The entry method comes first, and none is lost. -/
theorem promote_perm {entry : Nat} {outputs : List α} : (promote entry outputs).Perm outputs := by
  unfold promote
  by_cases inside : entry < outputs.length
  · rw [List.getElem?_eq_getElem inside]
    exact List.getElem_cons_eraseIdx_perm inside
  · rw [List.getElem?_eq_none (by omega), List.eraseIdx_of_length_le (by omega)]
    exact .refl _

end Nasm64.Program
