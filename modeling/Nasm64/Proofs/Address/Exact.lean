import Nasm64.Proofs.Address.Node
import Nasm64.Proofs.Machine.Held

/-! The code of a place comes to its address, and reads and writes as many bytes as its type has. -/
namespace Nasm64

open Lower Lowering Machine

namespace Expr

variable {env : Env} {w : World} {scope : List (String × Variable)} {weight : Nat}
  {frame next : Frame}

section

variable (expr : Expr) (env : Env) (w : World) (scope : List (String × Variable)) (weight : Nat)

abbrev Reached : Prop := expr.lowering.Reaches env w scope weight (expr.reaches w env scope)

abbrev Pointing : Prop :=
  expr.lowering.Points env w scope weight (expr.pointed w env scope (expr.reaches w env scope))

/-- The code of its place comes to where it is and, of a pointer, the code of its value to where it
points. -/
structure Placed : Prop where
  reached : expr.Reached env w scope weight
  pointing : expr.type.isPointer = true → expr.Pointing env w scope weight

end

/-- Expressions that name no place. A pointer among them is what its code leaves in a register. -/
theorem unplaced {expr : Expr} (plain : expr.isPlace = false)
    (brackets : expr.lowering.Brackets env weight) : expr.Placed env w scope weight := by
  constructor
  · refine ⟨brackets, ?_⟩
    intro hint frame next code located _ _ _ run
    have refused : expr.lowering.place = fun _ => fail expr.position (.notAddressable expr.describe) := by
      cases expr with
      | ident | index | member | deref => cases plain
      | unary pos op opnd => cases op <;> rfl
      | binary pos op left right ty =>
        rw [lowering_binary]
        rfl
      | _ => rfl
    rw [refused] at run
    exact absurd run yields_fail
  · intro ptr
    refine ⟨brackets, ?_⟩
    intro frame next dst code visible pooled among width run m sound clear
    have wide : expr.type.registerSize = 8 := by
      cases type : expr.type with
      | pointer content => rfl
      | _ =>
        rw [type] at ptr
        cases ptr
    unfold pointed
    rw [plain, if_neg (by decide)]
    apply Outcomes.bind_word
    · refine ⟨frame, dst, code, next, visible, pooled, among, ?_, rfl⟩
      rwa [wide, show dst.resize 8 = dst by rw [← width]; rfl]
    · intro after
      rfl

/-- Places that are read by a load. -/
theorem placed_of_load {expr : Expr} (place : expr.isPlace = true)
    (loads : expr.lowering.value = expr.lowering.load) (reaches : expr.Reached env w scope weight) :
    expr.Placed env w scope weight := by
  refine ⟨reaches, fun ptr => ?_⟩
  unfold Pointing pointed
  rw [if_pos place]
  rw [← lowering_type] at ptr
  apply Points.of_fetched reaches.brackets ptr
  intro frame next frag visible pooled run
  subst visible
  rw [loads] at run
  apply reaches.load_fetched pooled _ run
  cases type : expr.lowering.type with
  | pointer content => rfl
  | _ =>
    rw [type] at ptr
    cases ptr

theorem variable_fetched {pos : Position} {name : String} {ty : Ty} {fragment : Lowered}
    (placeable : (ident pos name ty).Placeable frame.scope) (scalar : ty.isScalar = true)
    (run : Yields (lowerVariable pos name) env frame fragment next) :
    Fetched frame env w weight ty ((ident pos name ty).reaches w env frame.scope) fragment := by
  obtain ⟨slot, found, kind⟩ := yields_lowerVariable.mp run
  obtain rfl := placeable slot found
  rcases kind with ⟨array, _⟩ | ⟨_, _, rfl, _⟩
  · cases array.symm.trans (Ty.isArray_of_isScalar scalar)
  · refine ⟨[], .frameSlot slot.offset, .operand, fun m _ _ => ?_⟩
    refine ⟨slot, found, m, .refl m, ?_⟩
    exact congrArg (fun place => some (place, m)) (address_frameSlot w m slot.offset)

theorem started_leads {base : Expr} (placed : base.Placed env w frame.scope weight)
    (pooled : frame.Pooled) (lends : frame.Lends hint)
    (run : Yields (placeBase base.lowering hint) env frame (code, located) next) :
    frame.Locates env weight hint code located next ∧
      frame.Leads env w weight (base.started w env frame.scope (base.reaches w env frame.scope))
        code located next := by
  refine ⟨placeBase_locates placed.reached.brackets pooled.ordinary lends.offers run, ?_⟩
  unfold placeBase at run
  unfold started
  rw [lowering_type] at run
  by_cases ptr : base.type.isPointer = true
  · rw [if_pos ptr] at run ⊢
    exact placePointer_leads (placed.pointing ptr) pooled lends run
  · rw [if_neg ptr] at run ⊢
    exact placed.reached.leads rfl pooled lends run

/-- A literal index that is a number of its type is the same after it is extended. -/
theorem extend_literal {v : Int64} {ty : Ty} (integer : ty.isInteger = true)
    (ranged : Word.fold v ty.registerSize ty.isSigned = v) :
    Word.extend ty.isSigned ty.registerSize.toNat v.toBitVec = v.toBitVec := by
  have width : ty.registerSize.toNat = 1 ∨ ty.registerSize.toNat = 2 ∨ ty.registerSize.toNat = 4 ∨
      ty.registerSize.toNat = 8 := by
    cases ty with
    | prim primitive => cases primitive <;> decide
    | _ => cases integer
  have natural : (ty.registerSize.toNat : Int) = ty.registerSize := by omega
  rw [← Word.toBitVec_fold width, natural, ranged]

/-- Elements are counted by their index from where their base is. -/
theorem index_reached {pos : Position} {base idx : Expr} (inner : base.Placed env w scope weight)
    (light : (index pos base idx).burden env ≤ weight)
    (countable : idx.Countable base.type.target.size) :
    (index pos base idx).Reached env w scope weight := by
  refine ⟨(lowering_brackets env _).mono light, ?_⟩
  have counts : idx.lowering.Brackets env weight :=
    (lowering_brackets env idx).mono (Nat.le_trans (Nat.le_add_left _ _) light)
  rintro hint frame next code located rfl pooled lends run
  obtain ⟨_, integer, _, start, mid, based, kind⟩ := yields_placeElement run
  rw [lowering_type] at integer kind
  obtain ⟨locates, leads⟩ := started_leads inner pooled lends based
  unfold Countable at countable
  rcases kind with ⟨v, lit, rfl, same⟩ | ⟨runtime, indexing, outer, indexed, same⟩
  · cases same
    rw [lit] at countable
    apply advance_leads _ leads
    intro start m
    unfold counted
    rw [lit]
    refine .inr ⟨v.toBitVec, m, ⟨m, .refl m, rfl⟩, m, .refl m, ?_⟩
    rw [extend_literal integer countable, Int64.toBitVec_mul, BitVec.mul_comm]
  · cases same
    rw [runtime] at countable
    exact addIndex_leads integer countable runtime counts locates leads indexed

theorem variable_reached {pos : Position} {name : String} {ty : Ty} :
    (ident pos name ty).Reached env w scope weight := by
  refine ⟨(lowering_brackets env _).mono (Nat.zero_le _), ?_⟩
  rintro hint frame next code located rfl pooled _ run
  exact placeVariable_leads pooled run

theorem variable_placed {pos : Position} {name : String} {ty : Ty}
    (placeable : (ident pos name ty).Placeable scope) :
    (ident pos name ty).Placed env w scope weight := by
  have reaches : (ident pos name ty).Reached env w scope weight := variable_reached
  refine ⟨reaches, fun ptr => ?_⟩
  apply Points.of_fetched reaches.brackets ptr
  rintro frame next frag rfl pooled run
  apply variable_fetched placeable _ run
  cases ty with
  | pointer content => rfl
  | _ => cases ptr

theorem placed (expr : Expr) (placeable : expr.Placeable scope) (light : expr.burden env ≤ weight) :
    expr.Placed env w scope weight := by
  have brackets : expr.lowering.Brackets env weight := (lowering_brackets env expr).mono light
  cases expr with
  | ident pos name ty => exact variable_placed placeable
  | deref pos ptr =>
    have inner := placed ptr placeable light
    refine placed_of_load rfl rfl ⟨brackets, ?_⟩
    rintro hint frame next code located rfl pooled lends run
    obtain ⟨isPointer, run⟩ := yields_placeDeref.mp run
    rw [lowering_type] at isPointer
    exact placePointer_leads (inner.pointing isPointer) pooled lends run
  | member pos base field =>
    have inner := placed base placeable light
    refine placed_of_load rfl rfl ⟨brackets, ?_⟩
    rintro hint frame next code located rfl pooled lends run
    obtain ⟨_, start, based, found, known, same⟩ := yields_placeMember run
    cases same
    rw [lowering_type] at known
    apply advance_leads _ (started_leads inner pooled lends based).2
    intro start m
    rw [known]
    exact ⟨m, .refl m, rfl⟩
  | index pos base idx =>
    have inner := placed base placeable.1 (Nat.le_trans (Nat.le_add_right _ _) light)
    exact placed_of_load rfl rfl (index_reached inner light placeable.2)
  | _ => exact unplaced rfl brackets
termination_by sizeOf expr
decreasing_by all_goals (subst_vars; simp +arith)

/-- The value of a variable: an array is its address, and a scalar what is in its slot. -/
theorem variable_loads {pos : Position} {name : String} {ty : Ty} {frag : Lowered}
    (placeable : (ident pos name ty).Placeable frame.scope) (pooled : frame.Pooled)
    (run : Yields (lowerVariable pos name) env frame frag next) :
    frame.Loads env w weight ty ((ident pos name ty).reaches w env frame.scope) frag := by
  obtain ⟨slot, found, kind⟩ := yields_lowerVariable.mp run
  have declared : slot.type = ty := placeable slot found
  rcases kind with ⟨array, dst, chosen, rfl⟩ | ⟨_, scalar, _⟩
  · intro m sound clear
    rw [declared] at array chosen
    rw [if_pos array]
    have kept : frame.Kept (frame.refer slot) := (Frame.Kept.refl _).refer slot
    obtain ⟨_, destines⟩ := destination_destines (pooled.kept kept) chosen
    cases ty with
    | array length element =>
      obtain ⟨after, ran, settles, content⟩ := lea_runs w m
        { base := .slot slot.offset }
        (.of_width (List.mem_cons_of_mem _ destines.pooled) (.inr (.inr (.inr destines.width))))
        destines.width
      refine ⟨slot, found, after, settles, ?_⟩
      show (m.run w [.lea dst { base := .slot slot.offset }]).map _ = _
      rw [ran, Option.map_some, content]
      simp [Machine.address, Machine.start]
    | _ => cases array
  · rw [declared] at scalar
    exact (variable_fetched placeable scalar run).loads scalar

/-- The value of a place: an array is its address, and a scalar what is there. -/
theorem value_loads {expr : Expr} {frag : Lowered} (placeable : expr.Placeable frame.scope)
    (pooled : frame.Pooled) (place : expr.isPlace = true)
    (run : Yields expr.lowering.value env frame frag next) :
    frame.Loads env w (expr.burden env) expr.type (expr.reaches w env frame.scope) frag := by
  obtain ⟨reaches, _⟩ := expr.placed placeable (Nat.le_refl _)
  have lasting : (expr.reaches w env frame.scope).Lasting := expr.reaches_lasting
  rw [← lowering_type]
  cases expr with
  | ident pos name ty => exact variable_loads placeable pooled run
  | deref | index | member => exact reaches.load_loads lasting pooled run
  | _ => cases place

end Expr

namespace Lower

variable {env : Env} {w : World} {frame next : Frame} {m : Machine}

theorem store_runs {r : Register} {float : Bool} (w : World) (m : Machine)
    (addr : Address) (working : r.Working float) :
    m.run w (store (.mem r.size addr) r) = some { m with
      memory := m.memory.store (m.address w addr) r.size.toNat
        (m.reg r.family) } := by
  have class_ := working.isFloat
  cases float with
  | false =>
    have general := working.general
    simp [store, class_, run, Line.mov, step, storeRegister, isStore,
      general]
  | true =>
    have width : r.size = 4 ∨ r.size = 8 := by
      simpa [Register.inPool] using working.supported
    rcases width with width | width <;>
      simp [store, class_, run, step, storeRegister, isStore,
        Conversion.floatMove, width]

theorem accumulatorFor_working (scalar : ty.isScalar = true) :
    (accumulatorFor ty).family ∈ Register.poolFamilies ty.isFloat ∧
      (accumulatorFor ty).size = ty.registerSize ∧ (accumulatorFor ty).Working ty.isFloat := by
  have pooled : (accumulatorFor ty).family ∈ Register.poolFamilies ty.isFloat := by
    unfold accumulatorFor
    cases ty.isFloat with
    | false => exact List.mem_cons_self
    | true => exact List.mem_cons_self
  have width : (accumulatorFor ty).size = ty.registerSize := by
    unfold accumulatorFor
    split <;> rfl
  refine ⟨pooled, width, List.mem_cons_of_mem _ pooled, ?_⟩
  rw [width]
  exact Ty.inPool_of_isScalar scalar

/-- Assigning to a scalar evaluates the value, goes to the place and writes as many bytes there as
the type of the place has. -/
theorem assignScalar_comes {dst v : Expr} {code : Code}
    (reaches : dst.Reached env w frame.scope (max (dst.burden env) (v.burden env)))
    (pooled : frame.Pooled) (scalar : dst.type.isScalar = true)
    (run : Yields (assignScalar dst v) env frame code next)
    (sound : Sound env frame.depth (max (dst.burden env) (v.burden env)) code)
    (clear : m.Clear code) :
    ∃ first rest mid, code = first ++ rest ∧
      Yields (v.lowering.into (accumulatorFor dst.type)) env frame first mid ∧
      ∀ reached, m.run w first = some reached →
      ∃ outcome, dst.reaches w env frame.scope reached outcome ∧
      reached.run w rest = outcome.map fun (place, after) =>
        { after with
          memory := after.memory.store place dst.type.size.toInt.toNat
            (reached.reg (accumulatorFor dst.type).family) } := by
  simp only [assignScalar, yields_bind, yields_pushRegister, yields_popRegister, yields_release,
    yields_pure] at run
  obtain ⟨valueCode, mid, evaluated, _, _, rfl, ⟨placeCode, place⟩, after, placed, _, _, rfl, _, _,
    rfl, rfl, rfl⟩ := run
  obtain ⟨among, width, working⟩ := accumulatorFor_working scalar
  have brackets : v.lowering.Brackets env (max (dst.burden env) (v.burden env)) :=
    (v.lowering_brackets env).mono (Nat.le_max_right _ _)
  have evaluates := brackets.into_evaluates pooled.ordinary evaluated working.ordinary
  have inner : (mid.push (accumulatorFor dst.type)).Pooled :=
    (pooled.kept evaluates.kept).push among
  have lends : (mid.push (accumulatorFor dst.type)).Lends none := by rintro _ ⟨⟩
  have leads := reaches.leads (by simp [evaluates.kept.scope]) inner lends placed
  have locates := reaches.brackets.place inner.ordinary lends.offers placed
  refine ⟨valueCode, placeCode ++ store (.mem (accumulatorFor dst.type).size place.address)
    (accumulatorFor dst.type), mid, List.append_assoc _ _ _, evaluated, fun reached ran => ?_⟩
  have before := evaluates.bracketed.agrees sound.left.left clear.left.left .none ran
  have clear : reached.Clear placeCode := (before.frame none placeCode).2.1 clear.left.right
  have deep : Sound env (mid.push (accumulatorFor dst.type)).depth
      (max (dst.burden env) (v.burden env)) placeCode := by
    simpa [evaluates.kept.depth] using sound.left.right
  refine ⟨_, leads.comes reached deep clear, ?_⟩
  rw [run_append]
  cases going : reached.run w placeCode with
  | none => rfl
  | some there =>
    -- the accumulator is held while the place is computed
    have kept : there.reg (accumulatorFor dst.type).family =
        reached.reg (accumulatorFor dst.type).family := by
      apply (locates.bracketed.agrees deep clear .none going).registers
      rintro ⟨_, unused | scratch | res⟩
      · rw [Frame.inUse_iff.mpr ⟨_, List.mem_cons_self, rfl⟩] at unused
        cases unused
      · exact Register.not_scratch among scratch
      · cases res
    rw [Option.bind_some, store_runs w there place.address working, kept, width,
      Ty.registerSize_of_isScalar scalar]
    rfl

end Lower

/-- Where the code of a place comes to is where the place is, faults in the evaluation of its indices
included: the base of it, in the frame or behind a pointer, and the offsets of members and the
distances of elements from there. The same goes for an address that is taken or loaded from, and for
an assignment, and the bytes that are read or written are those of the type. -/
theorem place_address_exact {env : Env} {frame : Frame} {expr : Expr} (world : World)
    (machine : Machine) (placeable : expr.Placeable frame.scope) (pooled : frame.Pooled) :
    (∀ hint code located next, frame.Lends hint →
      Yields (expr.lowering.place hint) env frame (code, located) next →
      Sound env frame.depth (expr.burden env) code → machine.Clear code →
      expr.reaches world env frame.scope machine ((machine.run world code).map fun after =>
        (after.address world located.address, after))) ∧
    (∀ fragment next, Yields expr.lowering.address env frame fragment next →
      Sound env frame.depth (expr.burden env) fragment.code → machine.Clear fragment.code →
      expr.reaches world env frame.scope machine (outcome? world machine fragment)) ∧
    (∀ fragment next, expr.isPlace = true → Yields expr.lowering.value env frame fragment next →
      Sound env frame.depth (expr.burden env) fragment.code → machine.Clear fragment.code →
      if expr.type.isArray then
        expr.reaches world env frame.scope machine (outcome? world machine fragment)
      else ReadsBytes expr.type.size.toInt fragment ∧
        expr.loaded world env frame.scope machine (outcome? world machine fragment)) ∧
    (∀ value code next, expr.type.isScalar = true →
      Yields (assignScalar expr value) env frame code next →
      Sound env frame.depth (max (expr.burden env) (value.burden env)) code → machine.Clear code →
      ∃ first rest middle, code = first ++ rest ∧
        Yields (value.lowering.into (accumulatorFor expr.type)) env frame first middle ∧
        ∀ reached, machine.run world first = some reached → ∃ outcome,
          expr.reaches world env frame.scope reached outcome ∧
          reached.run world rest = outcome.map fun (place, after) => { after with
            memory := after.memory.store place expr.type.size.toInt.toNat
              (reached.reg (accumulatorFor expr.type).family) }) := by
  have reaches : expr.Reached env world frame.scope (expr.burden env) :=
    (expr.placed placeable (Nat.le_refl _)).1
  refine ⟨?_, ?_, ?_, ?_⟩
  · intro hint code located next lends run sound clear
    exact (reaches.leads rfl pooled lends run).comes machine sound clear
  · intro fragment next run sound clear
    exact reaches.address_denotes expr.reaches_lasting pooled run machine sound clear
  · intro fragment next place run sound clear
    exact Expr.value_loads placeable pooled place run machine sound clear
  · intro value code next scalar run sound clear
    exact assignScalar_comes (expr.placed placeable (Nat.le_max_left _ _)).1 pooled scalar run sound
      clear

/-- A machine with ones in all bytes of memory. -/
def Machine.ones : Machine := { Machine.sample 7 with memory := fun _ => 1 }

/-- A frame whose only variable, at `[rbp - 8]`, is the pointer `p`. -/
def Lower.Frame.pointing (content : Ty) : Frame :=
  { position := 8, scope := [("p", ⟨8, 8, 1, .pointer content⟩)] }

theorem Lower.Frame.pointing_pooled (content : Ty) : (Frame.pointing content).Pooled := by
  rintro _ ⟨⟩

/-- A struct with an array in it, eight bytes from its start. -/
def chunkType : Ty := .struct "T" [("k", .prim .i32), ("v", .array 4 (.prim .i64))]

def elementBehindCall : Expr :=
  .index {} (.member {} (.index {} (.ident {} "p" (.pointer chunkType)) pairCall) "v")
    (.number {} 3 (.prim .i64))

theorem elementBehindCall_placeable : elementBehindCall.Placeable (Frame.pointing chunkType).scope := by
  refine ⟨⟨?_, ?_⟩, ?_⟩
  · rintro _ ⟨⟩
    rfl
  · show (Operand.imm chunkType.size).encodable 8 = true
    decide
  · show Word.fold 3 8 true = 3
    decide

theorem Machine.clear_of_storeless {m : Machine} {code : Code}
    (storeless : code.all (fun line => line.frameStore?.isNone) = true) : m.Clear code := by
  rintro byte ⟨line, mem, disp, size, found, _⟩
  have none := List.all_eq_true.mp storeless line mem
  simp [found] at none

theorem place_address_exact_behind_call :
    (∃ fragment next, Yields elementBehindCall.lowering.address (.pairing 16) (.pointing chunkType)
        fragment next ∧
      elementBehindCall.reaches .clearing (.pairing 16) (Frame.pointing chunkType).scope .ones
        (outcome? .clearing .ones fragment) ∧
      (outcome? .clearing .ones fragment).map Prod.fst = some (0x0101010101010101 + 32)) ∧
    ∃ fragment next, Yields elementBehindCall.lowering.value (.pairing 16) (.pointing chunkType)
        fragment next ∧
      ReadsBytes 8 fragment ∧
      elementBehindCall.loaded .clearing (.pairing 16) (Frame.pointing chunkType).scope .ones
        (outcome? .clearing .ones fragment) ∧
      (outcome? .clearing .ones fragment).map Prod.fst = some 0x0101010101010101 := by
  have ample : ∀ code : Code, Sound (.pairing 16) (Frame.pointing chunkType).depth
      (elementBehindCall.burden (.pairing 16)) code :=
    fun _ => .inr ⟨by decide, by decide, by decide +kernel⟩
  constructor
  · obtain ⟨fragment, next, lowered, checked⟩ := Yields.of_check elementBehindCall.lowering.address
      (.pairing 16) (.pointing chunkType)
      (fun fragment => fragment.code.all (fun line => line.frameStore?.isNone) &&
        (outcome? .clearing .ones fragment).map Prod.fst == some (0x0101010101010101 + 32))
      (by decide +kernel)
    obtain ⟨storeless, found⟩ := Bool.and_eq_true_iff.mp checked
    have addressed := (place_address_exact .clearing .ones elementBehindCall_placeable
      (Frame.pointing_pooled chunkType)).2.1 fragment next lowered (ample _)
      (Machine.clear_of_storeless storeless)
    exact ⟨fragment, next, lowered, addressed, beq_iff_eq.mp found⟩
  · obtain ⟨fragment, next, lowered, checked⟩ := Yields.of_check elementBehindCall.lowering.value
      (.pairing 16) (.pointing chunkType)
      (fun fragment => fragment.code.all (fun line => line.frameStore?.isNone) &&
        (outcome? .clearing .ones fragment).map Prod.fst == some 0x0101010101010101)
      (by decide +kernel)
    obtain ⟨storeless, found⟩ := Bool.and_eq_true_iff.mp checked
    obtain ⟨reads, loaded⟩ := (place_address_exact .clearing .ones elementBehindCall_placeable
      (Frame.pointing_pooled chunkType)).2.2.1 fragment next rfl lowered (ample _)
      (Machine.clear_of_storeless storeless)
    exact ⟨fragment, next, lowered, reads, loaded, beq_iff_eq.mp found⟩

/-- A variable can always be moved to a register. -/
theorem Expr.variable_evaluated {w : World} {env : Env} {scope : List (String × Variable)}
    {pos : Position} {name : String} {slot : Variable} {m : Machine}
    (found : scope.lookup name = some slot) (declared : slot.type = .prim .i64) :
    ¬ (ident pos name (.prim .i64)).evaluated w env scope m none := by
  rintro ⟨frame, r, code, next, rfl, _, among, run, faults⟩
  obtain ⟨_, inner, after, valued, _, rfl, _⟩ := yields_into.mp run
  obtain ⟨other, again, kind⟩ := yields_lowerVariable.mp valued
  cases found.symm.trans again
  rw [declared] at kind
  rcases kind with ⟨⟨⟩, _⟩ | ⟨_, _, rfl, _⟩
  have working : (r.resize 8).Working false :=
    .of_width (List.mem_cons_of_mem _ among) (.inr (.inr (.inr rfl)))
  obtain ⟨later, ran, _⟩ := move_runs w m working
    (content_mem false w m 8 (.frameSlot slot.offset))
  have moved : m.run w (settle (.inline (.mem 8 (.frameSlot slot.offset)))
      (r.resize 8)).code = some later := ran
  cases faults.trans (congrArg _ moved)

def wideType : Ty := .array 2147483648 (.prim .u8)

/-- A frame with a pointer `p`, at `[rbp - 8]`, and an index `i`. -/
def Lower.Frame.counting (content : Ty) : Frame :=
  { position := 16
    scope := [("i", ⟨16, 8, 1, .prim .i64⟩), ("p", ⟨8, 8, 1, .pointer content⟩)] }

/-- With a negative alignment the argument area of a call in the index is too small, and the pointer
saved above it is overwritten: the address is that of the second argument, where the pointer holds an
odd one. The size of an element that takes more than 31 bits is no operand of the instruction that
counts elements, and the code has no outcome although the index has one. -/
theorem place_address_lost :
    (∃ fragment next, Yields (Expr.index {} (.ident {} "p" (.pointer (.prim .i64)))
          pairCall).lowering.address (.pairing (-16)) (.pointing (.prim .i64)) fragment next ∧
      (outcome? .clearing .ones fragment).map Prod.fst = some 2 ∧
      ¬ (Expr.index {} (.ident {} "p" (.pointer (.prim .i64))) pairCall).reaches .clearing
        (.pairing (-16)) (Frame.pointing (.prim .i64)).scope .ones (outcome? .clearing .ones fragment)) ∧
    ∃ fragment next, Yields (Expr.index {} (.ident {} "p" (.pointer wideType))
          (.ident {} "i" (.prim .i64))).lowering.address (.pairing 16) (.counting wideType) fragment
        next ∧
      outcome? .clearing .ones fragment = none ∧
      ¬ (Expr.index {} (.ident {} "p" (.pointer wideType)) (.ident {} "i" (.prim .i64))).reaches
        .clearing (.pairing 16) (Frame.counting wideType).scope .ones
        (outcome? .clearing .ones fragment) := by
  constructor
  · obtain ⟨fragment, next, lowered, checked⟩ := Yields.of_check (Expr.index {}
      (.ident {} "p" (.pointer (.prim .i64))) pairCall).lowering.address (.pairing (-16))
      (.pointing (.prim .i64)) (fun fragment => (outcome? .clearing .ones fragment).map Prod.fst == some 2)
      (by decide +kernel)
    have second := beq_iff_eq.mp checked
    refine ⟨fragment, next, lowered, second, fun reached => ?_⟩
    obtain ⟨⟨_, after⟩, given, rfl⟩ := Option.map_eq_some_iff.mp second
    rw [given] at reached
    rcases reached with ⟨_, ⟨⟩⟩ | ⟨start, middle, started, ⟨_, ⟨⟩⟩ | ⟨count, _, _, _, _, same⟩⟩
    rw [Expr.started_pointer rfl] at started
    obtain ⟨_, _, held⟩ := started
    have pointer : start = 0x0101010101010101 := (congrArg Prod.fst (Option.some.inj held)).trans rfl
    subst pointer
    have odd : ∀ distance : BitVec 64, 2 ≠ 0x0101010101010101 + distance * 8 := by
      intro distance
      bv_omega
    exact odd _ (congrArg Prod.fst (Option.some.inj same))
  · obtain ⟨fragment, next, lowered, checked⟩ := Yields.of_check (Expr.index {}
      (.ident {} "p" (.pointer wideType)) (.ident {} "i" (.prim .i64))).lowering.address (.pairing 16)
      (.counting wideType) (fun fragment => (outcome? .clearing .ones fragment).isNone) (by decide +kernel)
    have faults := Option.isNone_iff_eq_none.mp checked
    refine ⟨fragment, next, lowered, faults, fun reached => ?_⟩
    rw [faults] at reached
    rcases reached with ⟨started, _⟩ | ⟨_, _, _, ⟨counted, _⟩ | ⟨_, _, _, _, _, ⟨⟩⟩⟩
    · rw [Expr.started_pointer rfl] at started
      obtain ⟨_, _, ⟨⟩⟩ := started
    · exact Expr.variable_evaluated rfl rfl counted

end Nasm64
