import Nasm64.Proofs.Address.Exact
import Nasm64.Proofs.Passing.Entry

/-! Parameters of array type. A method receives a pointer for each, which it keeps in a slot of its
frame. Their elements are counted from what is in the slot when they are used as pointers, and from
the slot when they are used as arrays. -/
namespace Nasm64

open Lower

namespace Expr

/-- The element with an index, counted from where another computation comes to. -/
def countedFrom (world : World) (env : Env) (scope : List (String × Variable)) (subscript : Expr)
    (size : Int64) (start : Outcomes) : Outcomes :=
  start.bind fun start => (subscript.counted world env scope).bind fun count => .word fun _ =>
    start + Word.extend subscript.type.isSigned subscript.type.registerSize.toNat count * size.toBitVec

/-- Whether its address is taken, its value is read or it is assigned to, an expression is found where
`outcomes` says. -/
structure UsedAt (expr : Expr) (env : Env) (frame : Frame) (world : World) (machine : Machine)
    (outcomes : Outcomes) : Prop where
  address : ∀ fragment next, Yields expr.lowering.address env frame fragment next →
    Lower.Sound env frame.depth (expr.burden env) fragment.code → machine.Clear fragment.code →
    outcomes machine (outcome? world machine fragment)
  value : ∀ fragment next, Yields expr.lowering.value env frame fragment next →
    Lower.Sound env frame.depth (expr.burden env) fragment.code → machine.Clear fragment.code →
    if expr.type.isArray then outcomes machine (outcome? world machine fragment)
    else ReadsBytes expr.type.size.toInt fragment ∧
      (outcomes.bind fun place => .word fun machine =>
        machine.memory.load place expr.type.size.toInt.toNat) machine (outcome? world machine fragment)
  assigned : ∀ value code next, expr.type.isScalar = true →
    Yields (assignScalar expr value) env frame code next →
    Lower.Sound env frame.depth (max (expr.burden env) (value.burden env)) code → machine.Clear code →
    ∃ first rest middle, code = first ++ rest ∧
      Yields (value.lowering.into (accumulatorFor expr.type)) env frame first middle ∧
      ∀ reached, machine.run world first = some reached → ∃ outcome, outcomes reached outcome ∧
        reached.run world rest = outcome.map fun (place, after) => { after with
          memory := after.memory.store place expr.type.size.toInt.toNat
            (reached.reg (accumulatorFor expr.type).family) }

variable {env : Env} {w : World} {frame next : Frame} {m : Machine}
  {pos place : Position} {idx : Expr}

theorem index_usedAt (base : Expr) (pooled : frame.Pooled)
    (countable : idx.Countable base.type.target.size)
    (started : base.started w env frame.scope (base.reaches w env frame.scope) = start)
    (inner : ∀ {weight}, base.burden env ≤ weight → base.Placed env w frame.scope weight) :
    (index pos base idx).UsedAt env frame w m
      (idx.countedFrom w env frame.scope base.type.target.size start) := by
  subst started
  have reaches {weight : Nat} (light : (index pos base idx).burden env ≤ weight) :
      (index pos base idx).Reached env w frame.scope weight :=
    index_reached (inner (Nat.le_trans (Nat.le_add_right _ _) light)) light countable
  have lasting : ((index pos base idx).reaches w env frame.scope).Lasting :=
    (index pos base idx).reaches_lasting
  constructor
  · intro fragment next run sound clear
    exact (reaches (Nat.le_refl _)).address_denotes lasting pooled run m sound clear
  · intro fragment next run sound clear
    rw [← lowering_type]
    exact (reaches (Nat.le_refl _)).load_loads lasting pooled run m sound clear
  · intro val code next scalar run sound clear
    exact assignScalar_comes (reaches (Nat.le_max_left _ _)) pooled scalar run sound clear

section

variable {name : String} {slot : Variable} {length : Nat} {element : Ty}

/-- Elements of a variable that is used as an array are counted from its slot. -/
theorem array_usedAt (found : frame.scope.lookup name = some slot) (pooled : frame.Pooled)
    (countable : idx.Countable element.size) :
    (index pos (ident place name (.array length element)) idx).UsedAt env frame w m
      (idx.countedFrom w env frame.scope element.size (.word fun m =>
      m.reg .rbp - slot.offset.toBitVec)) := by
  apply index_usedAt (ident place name (.array length element)) pooled countable
    (started_array found)
  intro weight _
  refine ⟨variable_reached, fun pointer => ?_⟩
  cases pointer

/-- Elements of a variable that is used as a pointer are counted from what is in its slot. -/
theorem pointer_usedAt (found : frame.scope.lookup name = some slot)
    (holds : slot.type = .pointer element) (pooled : frame.Pooled)
    (countable : idx.Countable element.size) :
    (index pos (ident place name (.pointer element)) idx).UsedAt env frame w m
      (idx.countedFrom w env frame.scope element.size (.word fun m =>
      m.memory.load (m.reg .rbp - slot.offset.toBitVec) 8)) := by
  apply index_usedAt (ident place name (.pointer element)) pooled countable (started_pointer found)
  intro weight _
  apply placed _ _ (Nat.zero_le _)
  intro other again
  cases found.symm.trans again
  exact holds

end
end Expr

namespace Lower

variable {env : Env} {frame next : Frame} {hint : Option Register} {code : Code} {located : Located}

theorem index_base
    (run : Yields ((Expr.index pos base subscript).lowering.place hint) env frame (code,
      located) next) :
    ∃ first start mid, Yields (placeBase base.lowering hint) env frame (first, start) mid ∧
      located.address.base = start.address.base := by
  obtain ⟨_, _, first, start, mid, based, kind⟩ := yields_placeElement run
  refine ⟨first, start, mid, based, ?_⟩
  rcases kind with ⟨idx, _, _, same⟩ | ⟨_, indexing, outer, indexed, same⟩
  · cases same
    rfl
  · cases same
    obtain ⟨_, _, _, _, _, ⟨_, _, same⟩ | ⟨_, _, _, same⟩⟩ := yields_addIndex indexed
    · cases same
      rfl
    · cases same
      rfl

/-- What a pointer holds is brought to a register that is not the frame pointer. -/
theorem placePointer_base (lends : frame.Lends hint)
    (run : Yields (placePointer ptr hint) env frame (code, located) next) :
    located.address.base ≠ .reg .framePointer := by
  have aside {r : Register} (among : r.family ∈ Register.poolFamilies false) :
      Base.reg (r.resize 8) ≠ .reg .framePointer := by
    intro same
    have fam : r.family = .rbp := congrArg Register.family (Base.reg.inj same)
    rw [fam] at among
    revert among
    decide
  rcases yields_placePointer run with ⟨r, _, usable, _, same⟩ |
    ⟨r, _, _, found, _, same⟩
  · cases same
    exact aside (lends r (Option.filter_eq_some_iff.mp usable).1).1
  · cases same
    exact aside (Frame.free_fresh found).pooled

end Lower

/-- A parameter of array type is in the frame as the pointer that came for it. Used as a pointer, its
elements are those of the array that the caller passed. Used as the array it is declared to be, they
are counted from the slot of the pointer, and the code never has the same operand; only the parameter
as a whole is the pointer at every type. -/
theorem array_parameter_uses {env : Env} {method : String} {before after : List Parameter}
    {parameter : Parameter} {length : Nat} {element : Ty} {start entry frame : Frame} {copies : Code}
    {subscript : Expr} (world : World) (machine : Machine) (position place : Position)
    (declared : parameter.type = .array length element)
    (last : ∀ other ∈ after, other.name ≠ parameter.name) (empty : start.position = 0)
    (received : Yields (lowerParameters method 0 (before ++ parameter :: after)) env start copies entry)
    (visible : frame.scope.lookup parameter.name = entry.scope.lookup parameter.name)
    (pooled : frame.Pooled) (countable : subscript.Countable element.size) :
    ∃ slot, frame.scope.lookup parameter.name = some slot ∧ slot.type = .pointer element ∧
      (∀ upper atCall size inside, Machine.Inside atCall size inside →
        Need.extent 0 (parameterNeeds (before ++ parameter :: after)) ≤ min size (2 ^ 62) →
        (atCall.reg .rsp).toNat + 8 * (before ++ parameter :: after).length ≤ 2 ^ 64 →
        ∃ within, Machine.enter world upper copies inside = some within ∧
          within.memory.load (within.reg .rbp - slot.offset.toBitVec) 8 =
            atCall.argument (atCall.reg .rsp) before.length (.pointer element)) ∧
      (Expr.index position (.ident place parameter.name (.pointer element)) subscript).UsedAt env frame
        world machine (subscript.countedFrom world env frame.scope element.size (.word fun machine =>
          machine.memory.load (machine.reg .rbp - slot.offset.toBitVec) 8)) ∧
      (Expr.index position (.ident place parameter.name parameter.type) subscript).UsedAt env frame
        world machine (subscript.countedFrom world env frame.scope element.size (.word fun machine =>
          machine.reg .rbp - slot.offset.toBitVec)) ∧
      (∀ hint code located next code' located' next', frame.Lends hint →
        Yields ((Expr.index position (.ident place parameter.name (.pointer element))
          subscript).lowering.place hint) env frame (code, located) next →
        Yields ((Expr.index position (.ident place parameter.name parameter.type)
          subscript).lowering.place hint) env frame (code', located') next' →
        located.address ≠ located'.address) ∧
      ∀ ty fragment next,
        Yields (Expr.ident place parameter.name ty).lowering.value env frame fragment next →
        fragment = .inline (.mem 8 (.frameSlot slot.offset)) := by
  obtain ⟨slots, hold, rfl, scope⟩ := yields_lowerParameters received
  obtain ⟨slot, numbered, typed, found⟩ := hold.lookup last
  rw [← scope, ← visible] at found
  rw [declared] at typed ⊢
  refine ⟨slot, found, typed, ?_, Expr.pointer_usedAt found typed pooled countable,
    Expr.array_usedAt found pooled countable, ?_, ?_⟩
  · intro upper atCall size inside enters room arrived
    rw [empty] at hold
    obtain ⟨small, fits⟩ := Int.le_min.mp room
    obtain ⟨apart, lies⟩ := hold.within fits small
    have count : slots.length = (before ++ parameter :: after).length := by
      simpa using congrArg List.length hold.types
    rw [← count, ← Nat.zero_add slots.length] at arrived
    obtain ⟨within, ran, still, holds, _⟩ :=
      Machine.copies_run world upper enters hold.scalar lies apart arrived
    refine ⟨within, ran, ?_⟩
    have held := holds _ slot numbered
    rw [typed, Nat.zero_add] at held
    rw [still.base]
    exact held
  · intro hint code located next code' located' next' lends asPointer asArray same
    obtain ⟨_, behind, _, pointed, based⟩ := index_base asPointer
    obtain ⟨_, own, _, placed, based'⟩ := index_base asArray
    obtain ⟨_, _, _, framed⟩ := yields_placeVariable.mp placed
    apply placePointer_base lends pointed
    rw [← based, same, based', (Prod.mk.inj framed).2]
    rfl
  · intro ty fragment next run
    obtain ⟨other, again, kind⟩ := yields_lowerVariable.mp run
    cases found.symm.trans again
    rw [typed] at kind
    rcases kind with ⟨⟨⟩, _⟩ | ⟨_, _, same, _⟩
    exact same

/-- The element `p[i]`, with `p` used at a type. -/
def elementOf (ty : Ty) : Expr := .index {} (.ident {} "p" ty) (.ident {} "i" (.prim .i64))

/-- The method has the parameters `p [4]i64, i i64`. -/
theorem array_parameter_uses_row :
    (∃ copies within, Yields (lowerParameters "f" 0 [⟨"p", .array 4 (.prim .i64)⟩, ⟨"i", .prim .i64⟩])
        (.pairing 16) {} copies (.counting (.prim .i64)) ∧
      Machine.enter .clearing (fun _ => 0) copies (Machine.ones.set .rbp 4080) = some within ∧
      within.memory.load (within.reg .rbp - 8) 8 = 7) ∧
    (∃ fragment next, Yields (elementOf (.array 4 (.prim .i64))).lowering.address (.pairing 16)
        (.counting (.prim .i64)) fragment next ∧
      (Expr.ident {} "i" (.prim .i64)).countedFrom .clearing (.pairing 16)
        (Frame.counting (.prim .i64)).scope 8 (.word fun machine => machine.reg .rbp - 8) .ones
        (outcome? .clearing .ones fragment)) ∧
    ∃ fragment next, Yields (elementOf (.pointer (.prim .i64))).lowering.address (.pairing 16)
        (.counting (.prim .i64)) fragment next ∧
      (Expr.ident {} "i" (.prim .i64)).countedFrom .clearing (.pairing 16)
        (Frame.counting (.prim .i64)).scope 8
        (.word fun machine => machine.memory.load (machine.reg .rbp - 8) 8) .ones
        (outcome? .clearing .ones fragment) := by
  have received : Yields (lowerParameters "f" 0
      ([] ++ ⟨"p", .array 4 (.prim .i64)⟩ :: [⟨"i", .prim .i64⟩])) (.pairing 16) {}
      (copyArguments 0 [⟨8, 8, 1, .pointer (.prim .i64)⟩, ⟨16, 8, 1, .prim .i64⟩])
      (.counting (.prim .i64)) := rfl
  have ample : ∀ (ty : Ty) (code : Code), Sound (.pairing 16) (Frame.counting (.prim .i64)).depth
      ((elementOf ty).burden (.pairing 16)) code := by
    intro ty code
    refine .inr ⟨by decide, by decide, ?_⟩
    show (0 : Int) + (0 : Nat) < 2 ^ 63
    decide
  have pooled : (Frame.counting (.prim .i64)).Pooled := by
    rintro _ ⟨⟩
  have countable : (Expr.ident {} "i" (.prim .i64)).Countable (Ty.prim .i64).size := by
    show (Operand.imm 8).encodable 8 = true
    decide
  have inside : Machine.Inside .ones 16 (Machine.ones.set .rbp 4080) := by
    refine ⟨by decide, rfl, ?_, fun _ _ => rfl⟩
    intro family _ other _
    exact if_neg other
  obtain ⟨slot, found, _, enters, asPointer, asArray, _⟩ := array_parameter_uses .clearing .ones {} {} rfl
    (by simp) rfl received rfl pooled countable
  cases found
  refine ⟨?_, ?_, ?_⟩
  · obtain ⟨within, ran, held⟩ := enters (fun _ => 0) .ones 16 _ inside (by decide) (by decide)
    exact ⟨_, within, received, ran, held⟩
  · obtain ⟨fragment, next, lowered, storeless⟩ := Yields.of_check
      (elementOf (.array 4 (.prim .i64))).lowering.address (.pairing 16) (.counting (.prim .i64))
      (fun fragment => fragment.code.all (fun line => line.frameStore?.isNone)) (by decide +kernel)
    exact ⟨fragment, next, lowered, asArray.address fragment next lowered (ample _ _)
      (Machine.clear_of_storeless storeless)⟩
  · obtain ⟨fragment, next, lowered, storeless⟩ := Yields.of_check
      (elementOf (.pointer (.prim .i64))).lowering.address (.pairing 16) (.counting (.prim .i64))
      (fun fragment => fragment.code.all (fun line => line.frameStore?.isNone)) (by decide +kernel)
    exact ⟨fragment, next, lowered, asPointer.address fragment next lowered (ample _ _)
      (Machine.clear_of_storeless storeless)⟩

/-- The element `p[i]` of a parameter `p [4]i64` is in the frame of the method, where nothing but the
pointer and the index are, and not behind the pointer. -/
theorem array_parameter_lost :
    (∃ fragment next, Yields (elementOf (.array 4 (.prim .i64))).lowering.address (.pairing 16)
        (.counting (.prim .i64)) fragment next ∧
      (outcome? .clearing .ones fragment).map Prod.fst =
        some (Machine.ones.reg .rbp - 8 + 0x0101010101010101 * 8)) ∧
    ∃ fragment next, Yields (elementOf (.pointer (.prim .i64))).lowering.address (.pairing 16)
        (.counting (.prim .i64)) fragment next ∧
      (outcome? .clearing .ones fragment).map Prod.fst =
        some (0x0101010101010101 + 0x0101010101010101 * 8) := by
  constructor
  · obtain ⟨fragment, next, lowered, found⟩ := Yields.of_check
      (elementOf (.array 4 (.prim .i64))).lowering.address (.pairing 16) (.counting (.prim .i64))
      (fun fragment => (outcome? .clearing .ones fragment).map Prod.fst ==
        some (Machine.ones.reg .rbp - 8 + 0x0101010101010101 * 8)) (by decide +kernel)
    exact ⟨fragment, next, lowered, beq_iff_eq.mp found⟩
  · obtain ⟨fragment, next, lowered, found⟩ := Yields.of_check
      (elementOf (.pointer (.prim .i64))).lowering.address (.pairing 16) (.counting (.prim .i64))
      (fun fragment => (outcome? .clearing .ones fragment).map Prod.fst ==
        some (0x0101010101010101 + 0x0101010101010101 * 8)) (by decide +kernel)
    exact ⟨fragment, next, lowered, beq_iff_eq.mp found⟩

end Nasm64
