import Nasm64.Proofs.Stack.Statement

/-! Declarations and assignments are simple statements. -/
namespace Nasm64

namespace Lower

variable {env : Env} {frame middle next : Frame} {weight : Nat} {first second code : Code}
  {located : Located}

theorem into_acts {v : Expr} {r : Register} (ord : frame.Ordinary) (fits : v.burden env ≤ weight)
    (run : Yields (v.lowering.into r) env frame code next)
    (overwritten : r.family.isVolatile = true) : frame.Acts env weight code next := by
  have usable := Family.isOrdinary_of_isVolatile overwritten
  have sends := ((v.lowering_orderly env).mono fits).into_sends ord run usable
  have kept : frame.Kept next := sends.grown
  exact ⟨⟨⟨kept.steady, .bracketed sends.bracketed⟩, kept.labels, sends.bracketed.unmarked⟩, _,
    sends.accounts.absorb (by simpa using Excused.of_volatile overwritten)⟩

theorem yields_allocate : Yields (allocate name ty) env frame slot next ↔ frame.allocate name ty =
    (slot, next) := by
  simp only [allocate, yields_bind, yields_get, and_assoc, exists_and_left, exists_eq_left']
  cases frame.allocate name ty
  simp [eq_comm, and_comm]

theorem allocate_rests (run : Yields (allocate name ty) env frame slot next) : frame.Rests next :=
    by
  have allocated := yields_allocate.mp run
  simp only [Frame.allocate, Frame.reserve, Prod.mk.injEq] at allocated
  obtain ⟨_, rfl⟩ := allocated
  exact ⟨⟨⟨rfl, rfl, Nat.add_comm _ _⟩, rfl⟩, rfl⟩

theorem addStruct?_rests (run : Yields (addStruct? ty values) env frame label next) :
    frame.Rests next := by
  simp only [addStruct?, yields_bind, yields_get] at run
  obtain ⟨_, _, ⟨rfl, rfl⟩, run⟩ := run
  split at run
  · simp only [yields_bind, yields_modify, yields_pure] at run
    obtain ⟨_, _, rfl, rfl, rfl⟩ := run
    exact ⟨⟨⟨rfl, rfl, Nat.add_comm _ _⟩, rfl⟩, rfl⟩
  · obtain ⟨_, rfl⟩ := yields_pure.mp run
    exact ⟨⟨.refl _, rfl⟩, rfl⟩

theorem storeValue_acts (ord : frame.Ordinary) (fits : v.burden env ≤ weight)
    (run : Yields (storeValue v ty addr) env frame code next) :
    frame.Acts env weight code next := by
  simp only [storeValue, yields_bind, yields_pure] at run
  obtain ⟨evaluation, _, evaluated, rfl, rfl⟩ := run
  exact (into_acts ord fits evaluated (accumulatorFor_volatile ty)).lines store_still

theorem storeField_acts (ord : frame.Ordinary) (fits : v.burden env ≤ weight)
    (run : Yields (storeField ty base name v) env frame code next) :
    frame.Acts env weight code next := by
  unfold storeField at run
  split at run
  · simp at run
  · split at run
    · simp at run
    · simp only at run
      split at run
      · rename_i const
        obtain ⟨rfl, rfl⟩ := yields_pure.mp run
        exact .of_still (storeConstant?_still const)
      · exact storeValue_acts ord fits run

theorem storeFields_acts {ty : Ty} {base : Address} {fields : List (String × Expr)}
    {codes : List Code} (ordinary : frame.Ordinary) (fits : Expr.fieldBurdens env fields ≤ weight)
    (run : Yields (fields.mapM fun (field, val) =>
      storeField ty base field val) env frame codes next) :
    frame.Acts env weight codes.flatten next := by
  induction fields generalizing frame codes next with
  | nil =>
    simp only [List.mapM_nil, yields_pure] at run
    obtain ⟨rfl, rfl⟩ := run
    exact .nil _
  | cons field rest ih =>
    obtain ⟨name, val⟩ := field
    simp only [List.mapM_cons, yields_bind, yields_pure] at run
    obtain ⟨first, middle, stored, others, _, mapped, rfl, rfl⟩ := run
    simp only [Expr.fieldBurdens] at fits
    have acts : frame.Acts env weight first middle := storeField_acts ordinary (by omega) stored
    exact acts.append (ih (ordinary.steady acts.steady) (by omega) mapped)

/-- A run that gives an address, up to the registers that stay held for it. -/
structure Frame.Finds (frame : Frame) (env : Env) (weight : Nat) (code : Code) (located : Located)
    (next : Frame) : Prop where
  ordinary : next.Ordinary
  released : frame.Acts env weight code { next with held := next.held.drop located.held }

/-- The registers of an address are given up after what is done with it. -/
theorem Frame.Finds.within (finds : frame.Finds env weight first located middle)
    (acts : middle.Acts env weight second next) :
    frame.Acts env weight (first ++ second) { next with held := next.held.drop located.held } :=
  finds.released.append (acts.drop located.held)

theorem place_finds {v : Expr} (ord : frame.Ordinary) (fits : v.burden env ≤ weight)
    (run : Yields (v.lowering.place none) env frame (code, located) next) :
    frame.Finds env weight code located next := by
  obtain ⟨⟨extra, length, grown, held, bracketed, accounts⟩, _, _⟩ :=
    ((v.lowering_orderly env).mono fits).place ord (by simp [Frame.Offers]) run
  refine ⟨held, ⟨⟨⟨?_, grown.depth, grown.balance⟩, .bracketed bracketed⟩, grown.labels,
    bracketed.unmarked⟩, _, accounts⟩
  simp [grown.held, ← length]

theorem declareStruct_acts (ordinary : frame.Ordinary) (fits : init.burden env ≤ weight)
    (run : Yields (declareStruct pos name ty init) env frame code next) :
    frame.Acts env weight code next := by
  unfold declareStruct at run
  split at run
  · rename_i fields
    simp only [yields_bind] at run
    obtain ⟨label, middle, added, run⟩ := run
    have adding := addStruct?_rests added
    refine .of_rests adding ?_
    split at run
    · simp only [yields_bind, yields_pure] at run
      obtain ⟨slot, _, allocated, rfl, rfl⟩ := run
      exact .of_rests (allocate_rests allocated) (.of_still copyBytes_still)
    · simp only [yields_bind, yields_pure] at run
      obtain ⟨slot, start, allocated, codes, _, stored, rfl, rfl⟩ := run
      have allocating := allocate_rests allocated
      refine .of_rests allocating (.append (.of_still zeroBytes_still) ?_)
      exact storeFields_acts ((ordinary.steady adding.toSteady).steady allocating.toSteady) fits
        stored
  · split at run
    · simp at run
    · simp only [yields_bind, yields_release, yields_pure] at run
      obtain ⟨⟨evaluation, source⟩, middle, placed, slot, start, allocated, _, _, rfl, rfl, rfl⟩ := run
      have finds : frame.Finds env weight evaluation source middle := place_finds ordinary fits placed
      exact finds.within (.of_rests (allocate_rests allocated) (.of_still copyBytes_still))

theorem declareScalar_acts (ord : frame.Ordinary) (fits : init.burden env ≤ weight)
    (run : Yields (declareScalar name ty init) env frame code next) :
    frame.Acts env weight code next := by
  unfold declareScalar at run
  split at run
  · simp only [yields_bind, yields_pure] at run
    obtain ⟨evaluation, middle, evaluated, slot, _, allocated, rfl, rfl⟩ := run
    have acts := (into_acts ord fits evaluated (accumulatorFor_volatile ty)).then_rests
      (allocate_rests allocated)
    exact acts.lines store_still
  · simp only [yields_bind] at run
    obtain ⟨slot, middle, allocated, run⟩ := run
    have allocating := allocate_rests allocated
    refine .of_rests allocating ?_
    split at run
    · rename_i const
      obtain ⟨rfl, rfl⟩ := yields_pure.mp run
      exact .of_still (storeConstant?_still const)
    · exact storeValue_acts (ord.steady allocating.toSteady) fits run

theorem declare_acts (ord : frame.Ordinary) (fits : ∀ v, init = some v → v.burden env ≤ weight)
    (run : Yields (declare pos name ty init) env frame code next) :
    frame.Acts env weight code next := by
  unfold declare at run
  split at run
  · simp at run
  · split at run
    · simp only [yields_bind, yields_pure] at run
      obtain ⟨slot, _, allocated, rfl, rfl⟩ := run
      exact .of_rests (allocate_rests allocated) (.nil _)
    · rename_i v
      split at run
      · exact declareStruct_acts ord (fits v rfl) run
      · split at run
        · simp at run
        · exact declareScalar_acts ord (fits v rfl) run

theorem lowerDeclaration_acts (ord : frame.Ordinary)
    (fits : ∀ v, init = some v → v.burden env ≤ weight)
    (run : Yields (lowerDeclaration pos name ty init) env frame code next) :
    frame.Acts env weight code next := by
  simp only [lowerDeclaration, yields_bind, yields_modify, yields_pure] at run
  obtain ⟨_, middle, declared, _, _, rfl, rfl, rfl⟩ := run
  exact (declare_acts ord fits declared).then_rests ⟨⟨⟨rfl, rfl, Nat.add_comm _ _⟩, rfl⟩, rfl⟩

theorem assignScalar_acts (ordinary : frame.Ordinary)
    (fits : max (tgt.burden env) (val.burden env) ≤ weight)
    (run : Yields (assignScalar tgt val) env frame code next) :
    frame.Acts env weight code next := by
  simp only [assignScalar, yields_bind, yields_pushRegister, yields_popRegister, yields_release,
    yields_pure] at run
  obtain ⟨valueCode, middle, evaluated, _, _, rfl, ⟨placeCode, place⟩, after, placed, _, _, rfl, _, _,
    rfl, rfl, rfl⟩ := run
  have overwritten := accumulatorFor_volatile tgt.type
  have evaluates : frame.Acts env weight valueCode middle :=
    into_acts ordinary (by omega) evaluated overwritten
  have finds : Frame.Finds _ env weight placeCode place after := place_finds
    ((ordinary.steady evaluates.steady).push (Family.isOrdinary_of_isVolatile overwritten))
    (by omega) placed
  have acts := evaluates.append (finds.released.drop 1)
  rw [List.drop_one] at acts
  exact acts.lines store_still

theorem structSource_finds (ord : frame.Ordinary) (fits : v.burden env ≤ weight)
    (run : Yields (structSource pos ty v) env frame (code, located) next) :
    frame.Finds env weight code located next := by
  unfold structSource at run
  split at run
  · simp only [yields_bind] at run
    obtain ⟨label, middle, added, run⟩ := run
    have adding := addStruct?_rests added
    cases label with
    | none => simp at run
    | some label =>
      simp only [yields_pure, Prod.mk.injEq] at run
      obtain ⟨⟨rfl, rfl⟩, rfl⟩ := run
      exact ⟨ord.steady adding.toSteady, .of_rests adding (.nil _)⟩
  · split at run
    · simp at run
    · exact place_finds ord fits run

theorem assignStruct_acts (ordinary : frame.Ordinary)
    (fits : max (tgt.burden env) (val.burden env) ≤ weight)
    (run : Yields (assignStruct pos tgt val) env frame code next) :
    frame.Acts env weight code next := by
  simp only [assignStruct, yields_bind, yields_release, yields_pure] at run
  obtain ⟨⟨sourceCode, source⟩, middle, sourced, ⟨placeCode, place⟩, after, placed, _, _, rfl, _, _,
    rfl, rfl, rfl⟩ := run
  have sourcing : frame.Finds env weight sourceCode source middle :=
    structSource_finds ordinary (by omega) sourced
  have placing : middle.Finds env weight placeCode place after :=
    place_finds sourcing.ordinary (by omega) placed
  exact (sourcing.within placing.released).lines copyBytes_still

theorem lowerAssignment_acts (ord : frame.Ordinary)
    (fits : max (dst.burden env) (v.burden env) ≤ weight)
    (run : Yields (lowerAssignment pos dst v) env frame code next) :
    frame.Acts env weight code next := by
  unfold lowerAssignment at run
  split at run
  · simp at run
  · split at run
    · exact assignStruct_acts ord fits run
    · split at run
      · simp at run
      · split at run
        · simp only [yields_bind, yields_lookup] at run
          obtain ⟨slot, _, ⟨_, rfl⟩, run⟩ := run
          have kept := (Frame.Kept.refl frame).refer slot
          have referred : frame.Rests (frame.refer slot) :=
            ⟨⟨kept.steady, kept.labels⟩, Frame.refer_touched⟩
          refine .of_rests referred ?_
          split at run
          · rename_i const
            obtain ⟨rfl, rfl⟩ := yields_pure.mp run
            exact .of_still (storeConstant?_still const)
          · exact assignScalar_acts (ord.steady referred.toSteady) fits run
        · exact assignScalar_acts ord fits run

end Lower
end Nasm64
