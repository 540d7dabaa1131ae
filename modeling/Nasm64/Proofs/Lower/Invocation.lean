import Nasm64.Lower.Invocation
import Nasm64.Proofs.Lower.Apply
import Nasm64.Proofs.Lower.Lowering

/-! The successful runs of calls. -/
namespace Nasm64.Lower

variable {env : Env} {frame next : Frame}

theorem yields_stageArgument :
    Yields (stageArgument i arg ty) env frame code next ↔
      ∃ evaluation, Yields (arg.into (accumulatorFor arg.type)) env frame evaluation next ∧
      code = evaluation ++ stageCode i arg.type ty := by
  simp [stageArgument, eq_comm (a := code)]

def Env.areaAt (env : Env) (depth : Int64) (count : Nat) : Int64 :=
  alignedArea depth (Call.argumentArea count env.shadowSpace) env.stackAlignment

def Frame.deepened (frame : Frame) (bytes : Int64) : Frame :=
  { frame with depth := frame.depth + bytes }

def Frame.raised (frame : Frame) (bytes : Int64) : Frame :=
  { frame with depth := frame.depth - bytes }

@[simp] theorem callFragment_code (code : Code) (dst : Option Register) :
    (callFragment code dst).code = code := by cases dst <;> rfl

theorem yields_emitCall :
    Yields (emitCall sig args slots dst) env frame frag next → env.stackAlignment ≠ 0 ∧
      ∃ saved, saved = frame.liveVolatile (dst.elim [] fun r => [r.family]) ∧
      ∃ area, area = env.areaAt (frame.saved saved.length).depth args.length ∧
      ∃ stage after, Yields (stageArguments 0 args) env ((frame.saved saved.length).deepened area)
        stage after ∧ frag = callFragment (saveCode saved ++
        reservedCode area (areaCode sig slots dst stage) ++ restoreCode saved) dst ∧
      next = (after.raised area).restored saved.length := by
  simp only [emitCall, yields_bind, yields_read, yields_get, yields_mapM_savePush]
  rintro ⟨_, _, ⟨rfl, rfl⟩, _, _, ⟨rfl, rfl⟩, _, _, ⟨rfl, rfl⟩, run⟩
  by_cases zero : env.stackAlignment = 0
  · simp [zero] at run
  · have passes : (env.stackAlignment == 0) = false := by simpa using zero
    simp only [passes, Bool.false_eq_true, if_false, yields_bind, yields_get, yields_modify,
      yields_mapM_restorePop, yields_pure, List.length_reverse] at run
    obtain ⟨_, _, ⟨rfl, rfl⟩, _, _, rfl, stage, after, staged, _, _, rfl, _, _, ⟨rfl, rfl⟩, rfl, rfl⟩ := run
    exact ⟨zero, _, rfl, _, rfl, stage, after, staged, rfl, rfl⟩

theorem yields_resultTarget : Yields (resultTarget pos res) env frame tgt next ↔
    (res.isVoid = true ∧ tgt = none ∧ next = frame) ∨ (res.isVoid = false ∧ ∃ r,
    tgt = some r ∧ Yields (destination pos res) env frame r next) := by
  cases isVoid : res.isVoid <;> simp [resultTarget, isVoid, and_comm, eq_comm]

theorem yields_lowerCall :
    Yields (lowerCall pos name args) env frame frag next →
      ∃ sig, env.table.lookup name (args.map Lowering.type) = .ok sig ∧
      (∀ arg ∈ args, arg.type.isStruct = false) ∧ sig.result.isStruct = false ∧
      ∃ types, types = sig.argumentTypes (args.map Lowering.type) ∧
      ∃ slots, Call.resolve types sig.isExternal = .ok slots ∧
      ∃ dst start, Yields (resultTarget pos sig.result) env frame dst start ∧
      Yields (emitCall sig (args.zip types) slots dst) env start frag next := by
  simp only [lowerCall, yields_bind, yields_read, yields_liftCause]
  rintro ⟨_, _, ⟨rfl, rfl⟩, sig, _, ⟨found, rfl⟩, run⟩
  refine ⟨sig, found, ?_⟩
  cases search : args.find? fun arg => arg.type.isStruct with
  | some arg => simp [search] at run
  | none =>
    simp only [search, yields_ite, yields_fail, and_false, false_or, yields_bind,
      yields_liftCause] at run
    obtain ⟨scalar, slots, _, ⟨resolved, rfl⟩, run⟩ := run
    exact ⟨by simpa using List.find?_eq_none.mp search, by simpa using scalar, _, rfl, slots,
      resolved, run⟩

end Nasm64.Lower
