import Nasm64.Proofs.Flow.Skeleton

/-! The stack discipline of methods, statements and expressions. -/
namespace Nasm64

open Lower

namespace Lower

variable {env : Env} {frame next : Frame} {weight : Nat} {code : Code}

/-- The frame is left as it was, and within the bound the code is disciplined. The displacement of
its lines counts from the depth of the frame. -/
structure Frame.Disciplines (frame : Frame) (env : Env) (weight : Nat) (code : Code) (next : Frame) :
    Prop where
  steady : frame.Steady next
  disciplined : 0 ≤ frame.depth.toInt → frame.depth.toInt + weight < 2 ^ 63 →
    code.Disciplined env.stackAlignment.toInt frame.depth.toInt

theorem Frame.Settles.disciplines (settles : frame.Settles env weight code next)
    (positive : 0 < env.stackAlignment.toInt) : frame.Disciplines env weight code next :=
  ⟨settles.steady, settles.settled.disciplined positive⟩

theorem displacement?_saveCode (saved : List Register) :
    (saveCode saved).displacement? = some (8 * (saved.length : Int)) := by
  induction saved with
  | nil => rfl
  | cons register rest ih =>
    refine (Code.displacement?_append (pushCode_falls register).1 ih).trans (congrArg some ?_)
    rw [List.length_cons]
    omega

theorem displacement?_restoreCode {saved : List Register}
    (ordinary : ∀ register ∈ saved, register.family.isOrdinary = true) :
    (restoreCode saved).displacement? = some (-(8 * (saved.length : Int))) := by
  induction saved with
  | nil => rfl
  | cons register rest ih =>
    have others := ih fun other mem => ordinary other (List.mem_cons_of_mem _ mem)
    have own := (popCode_rises (ordinary register List.mem_cons_self)).1
    have split : restoreCode (register :: rest) = restoreCode rest ++ popCode register := by
      simp [restoreCode]
    rw [split, Code.displacement?_append others own, List.length_cons]
    congr 1
    omega

/-- The depth at which the arguments of a call are evaluated differs from that of the frame by what the
code before them takes from the stack, and the code behind them gives back as much. -/
theorem emitCall_depth {fragment : Lowered}
    (run : Yields (emitCall signature arguments slots target) env frame fragment next) :
    ∃ opening staging call closing start after bytes,
      fragment.code = opening ++ staging ++ call ++ closing ∧
      Yields (stageArguments 0 arguments) env start staging after ∧
      opening.displacement? = some bytes ∧ start.depth = frame.depth + Int64.ofInt bytes ∧
      closing.displacement? = some (-bytes) ∧ next.depth = after.depth - Int64.ofInt bytes := by
  obtain ⟨_, saved, live, area, _, staging, after, staged, rfl, rfl⟩ := yields_emitCall run
  have ordinary : ∀ register ∈ saved, register.family.isOrdinary = true := by
    intro register mem
    exact Family.isOrdinary_of_isVolatile (Frame.mem_liveVolatile (live ▸ mem)).1
  have down : Code.displacement? [.binary .sub (.reg .stackPointer) (.imm area)] = some area.toInt := by
    simp [Code.displacement?, Line.displacement?]
  have up : Code.displacement? [.binary .add (.reg .stackPointer) (.imm area)] = some (-area.toInt) := by
    simp [Code.displacement?, Line.displacement?]
  have total : Int64.ofInt (8 * (saved.length : Int) + area.toInt) = Int64.ofNat (8 * saved.length) + area := by
    rw [Int64.ofInt_add, Int64.ofInt_toInt, ← Int64.ofInt_eq_ofNat]
    rfl
  refine ⟨saveCode saved ++ [.binary .sub (.reg .stackPointer) (.imm area)], staging,
    slots.flatMap loadLane ++ [.call signature.label] ++ resultCode signature.result target,
    [.binary .add (.reg .stackPointer) (.imm area)] ++ restoreCode saved, _, after,
    8 * (saved.length : Int) + area.toInt, ?_, staged,
    Code.displacement?_append (displacement?_saveCode saved) down, ?_,
    (Code.displacement?_append up (displacement?_restoreCode ordinary)).trans (congrArg some (by omega)), ?_⟩
  · simp [reservedCode, areaCode]
  · rw [total, ← Int64.add_assoc]
    rfl
  · rw [total]
    show after.depth - area - Int64.ofNat (8 * saved.length) = _
    grind

end Lower

theorem Code.Disciplined.shift {code : Code} (disciplined : code.Disciplined alignment 0)
    (aligned : alignment ∣ base) : code.Disciplined alignment base := by
  refine ⟨disciplined.returns, disciplined.along.mono ?_⟩
  rintro disp line ⟨above, marks, calls⟩
  refine ⟨above, marks, fun isCall => ?_⟩
  exact Int.dvd_add aligned (by simpa using calls isCall)

theorem Expr.answer_settles {frame : Frame} {expr : Expr} {demand : Demand} {frag : Lowered}
    (ord : frame.Ordinary) (usable : demand.IsOrdinary)
    (run : Yields (expr.lowering.answer demand) env frame frag next) :
    frame.Settles env (expr.burden env) frag.code next := by
  obtain ⟨⟨kept, bracketed⟩, _⟩ := expr.answer_bracketed ord usable run
  exact ⟨kept.steady, .bracketed bracketed⟩

namespace Method

variable {env : Env} {method : Method} {code : Code} {next : Frame}

/-- A method that lowers has the code of its body between an entry and an exit. -/
theorem lower_encloses (run : Yields method.lower env {} code next) :
    ∃ body after pos size saved, Yields method.lowerBodyUnchecked env {} body after ∧
      frameSize? pos env.shadowSpace env.stackAlignment = some size ∧
      code = surround env.signature.label env.resultLabel size saved body := by
  simp only [lower, yields_ite, yields_fail, and_false, false_or, yields_bind, yields_read,
    yields_get] at run
  obtain ⟨_, body, after, lowered, saved, _, _, _, _, _, _, _, ⟨rfl, _⟩, _, _, ⟨rfl, _⟩, run⟩ := run
  rw [Yields, lowerBody_eq_unchecked] at lowered
  split at run
  · simp at run
  · rename_i size found
    simp only [yields_pure] at run
    exact ⟨body, after, _, size, saved, lowered, found, run.1.symm⟩

/-- The size of the frame is a multiple of the alignment. -/
theorem lower_surrounds (positive : 0 < env.stackAlignment.toInt)
    (run : Yields method.lower env {} code next) :
    ∃ body after size saved, Yields method.lowerBodyUnchecked env {} body after ∧
      env.stackAlignment.toInt ∣ size.toInt ∧
      code = surround env.signature.label env.resultLabel size saved body := by
  obtain ⟨body, after, pos, size, saved, lowered, found, same⟩ := lower_encloses run
  simp only [frameSize?, Option.map_eq_some_iff] at found
  obtain ⟨power, _, rfl⟩ := found
  exact ⟨body, after, _, saved, lowered, Word.dvd_alignUp power positive, same⟩

end Method

/-- The stack discipline, with a positive alignment and less than `2 ^ 63` bytes on the stack. In the
body of a method the displacement comes back to zero, never drops below it, is zero at every label,
jump and comment, and at calls it is, with the frame, a multiple of the alignment. The same holds of
every statement and of every expression from the depth it is lowered at. They leave the frame as they
found it, and so the stacks are balanced at the end of a method. Saving and restoring a register moves the
depth as its code does, and so do the code before the arguments of a call, which reserves their area, and
the code behind them. -/
theorem lower_disciplined (env : Env) (positive : 0 < env.stackAlignment) :
    (∀ (method : Method) (code : Code) (next : Frame), method.burden env < 2 ^ 63 →
      Yields method.lower env {} code next →
      ∃ size saved body, code = surround env.signature.label env.resultLabel size saved body ∧
        body.Disciplined env.stackAlignment.toInt size.toInt) ∧
    (∀ (stmt : Stmt) (last : Bool) (frame next : Frame) (code : Code), frame.Ordinary →
      Yields (stmt.lower last) env frame code next →
      frame.Disciplines env (stmt.burden env) code next) ∧
    (∀ (expr : Expr) (demand : Demand) (frame next : Frame) (fragment : Lowered), frame.Ordinary →
      demand.IsOrdinary → Yields (expr.lowering.answer demand) env frame fragment next →
      frame.Disciplines env (expr.burden env) fragment.code next) ∧
    (∀ (register : Register) (frame next : Frame) (code : Code),
      Yields (savePush register) env frame code next →
      code.displacement? = some 8 ∧ next.depth = frame.depth + 8) ∧
    (∀ (register : Register) (frame next : Frame) (code : Code), register.family.isOrdinary = true →
      Yields (restorePop register) env frame code next →
      code.displacement? = some (-8) ∧ next.depth = frame.depth - 8) ∧
    (∀ (signature : Signature) (arguments : List (Lowering × Ty)) (slots : List Call.Slot)
        (target : Option Register) (frame next : Frame) (fragment : Lowered),
      Yields (emitCall signature arguments slots target) env frame fragment next →
      ∃ opening staging call closing start after bytes,
        fragment.code = opening ++ staging ++ call ++ closing ∧
        Yields (stageArguments 0 arguments) env start staging after ∧
        opening.displacement? = some bytes ∧ start.depth = frame.depth + Int64.ofInt bytes ∧
        closing.displacement? = some (-bytes) ∧ next.depth = after.depth - Int64.ofInt bytes) ∧
    (∀ (method : Method), method.lowerBody env {} = method.lowerBodyUnchecked env {}) := by
  have aligned : 0 < env.stackAlignment.toInt := Int64.lt_iff_toInt_lt.mp positive
  refine ⟨?_, ?_, ?_, ?_, ?_, fun _ _ _ _ _ _ _ run => emitCall_depth run,
    fun method => method.lowerBody_eq_unchecked env⟩
  · intro method code next fits run
    obtain ⟨body, after, size, saved, lowered, multiple, rfl⟩ := Method.lower_surrounds aligned run
    have settles := Method.lowerBodyUnchecked_settles (by simp [Frame.Ordinary]) lowered
    have disciplined := (settles.disciplines aligned).disciplined (by simp)
      (by simp only [Int64.toInt_zero]; omega)
    exact ⟨size, saved, body, rfl, disciplined.shift multiple⟩
  · intro stmt last frame next code ordinary run
    exact (stmt.lower_settles last ordinary (Nat.le_refl _) run).disciplines aligned
  · intro expr demand frame next fragment ordinary usable run
    exact (Expr.answer_settles ordinary usable run).disciplines aligned
  · intro register frame next code run
    obtain ⟨rfl, rfl⟩ := yields_savePush.mp run
    exact ⟨(pushCode_falls register).1, rfl⟩
  · intro register frame next code ordinary run
    obtain ⟨rfl, rfl⟩ := yields_restorePop.mp run
    exact ⟨(popCode_rises ordinary).1, rfl⟩

/-- Calls of `f` on the results of each other, and on one in the innermost. -/
def nestedCalls : Nat → Expr
  | 0 => .number {} 1 (.prim .i64)
  | count + 1 => .call {} "f" [nestedCalls count] (.prim .i64)

def nestedCallsMethod (count : Nat) : Method where
  position := {}
  name := "main"
  parameters := []
  result := .prim .i64
  body := some [.returning {} (some (nestedCalls count))]

/-- An environment that knows `f`, with the given alignment of the stack. -/
def Lower.Env.alignedTo (alignment : Int64) : Env where
  method := 0
  signature := (nestedCallsMethod 0).signature
  table := ⟨[⟨"f", [.prim .i64], .prim .i64, true, false⟩]⟩
  settings := some { stackAlignment := alignment }

theorem lower_disciplined_nested_calls :
    (∃ code next, Yields (nestedCallsMethod 2).lower (.alignedTo 16) {} code next ∧
      ∃ size saved body, code = surround "main" ".L0_ret" size saved body ∧
        body.Disciplined 16 size.toInt) ∧
    ∃ fragment next, Yields ((nestedCalls 2).lowering.answer (.register ⟨.rbx, 8⟩)) (.alignedTo 16)
        { held := [⟨.rcx, 8⟩] } fragment next ∧
      next.held = [⟨.rcx, 8⟩] ∧ fragment.code.Disciplined 16 0 := by
  obtain ⟨methods, _, answers, _⟩ := lower_disciplined (.alignedTo 16) (by decide)
  constructor
  · obtain ⟨code, next, run, _⟩ := Yields.of_check (nestedCallsMethod 2).lower (.alignedTo 16)
      {} (fun _ => true) (by decide +kernel)
    exact ⟨code, next, run, methods _ _ _ (by decide +kernel) run⟩
  · obtain ⟨fragment, next, run, _⟩ := Yields.of_check
      ((nestedCalls 2).lowering.answer (.register ⟨.rbx, 8⟩)) (.alignedTo 16)
      { held := [⟨.rcx, 8⟩] } (fun _ => true) (by decide +kernel)
    have usable : (Demand.register ⟨.rbx, 8⟩).IsOrdinary := rfl
    obtain ⟨steady, disciplined⟩ := answers _ _ _ _ _ (by simp [Frame.Ordinary]; decide) usable run
    exact ⟨fragment, next, run, steady.held, disciplined (by decide) (by decide +kernel)⟩

/-- Without a bound the depth overflows. At an alignment of `3 * 2 ^ 60` the innermost of four nested
calls reserves `2 ^ 62` bytes, and the stack is not aligned there. -/
theorem lower_misaligned_nested_calls :
    ∃ code next, Yields (nestedCallsMethod 4).lower (.alignedTo 3458764513820540928) {} code next ∧
      ∃ size body before after displacement, code = surround "main" ".L0_ret" size [] body ∧
        body = before ++ Line.call "f" :: after ∧ before.displacement? = some displacement ∧
        ¬ (3458764513820540928 : Int) ∣ size.toInt + displacement := by
  obtain ⟨code, next, run, checked⟩ := Yields.of_check (nestedCallsMethod 4).lower
    (.alignedTo 3458764513820540928) {}
    (fun code =>
      let body := (code.drop 4).take 21
      decide (code = surround "main" ".L0_ret" 3458764513820540928 [] body ∧
        body = body.take 7 ++ Line.call "f" :: body.drop 8 ∧
        Code.displacement? (body.take 7) = some 14987979559889010688)) (by decide +kernel)
  obtain ⟨shape, split, displaced⟩ := of_decide_eq_true checked
  exact ⟨code, next, run, _, _, _, _, _, shape, split, displaced, by decide⟩

end Nasm64
