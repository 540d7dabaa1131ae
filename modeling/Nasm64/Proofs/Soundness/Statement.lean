import Nasm64.Proofs.Soundness.Expr

/-! Typed statements and blocks come to a permitted end. The scope that lowering keeps is the one that
they are typed in. Simple statements, and the parameters of a method, are put together from steps. -/
namespace Nasm64

open Lower Code

namespace Ty

theorem scalar?_decay (ty : Ty) : ty.decay.scalar? = ty.scalar? := by cases ty <;> rfl

theorem isVoid_decay (ty : Ty) : ty.decay.isVoid = ty.isVoid := by cases ty <;> rfl

/-- No other type gives a struct. -/
theorem eq_of_decay_eq {ty other : Ty} (struct : ty.isStruct = true)
    (same : other.decay = ty.decay) : other = ty := by
  cases ty with
  | struct name fields => cases other <;> first | exact same | cases same
  | _ => cases struct

end Ty

/-- A value of the type that is asked for is in the class of that type. -/
theorem Expr.Gives.valued {expr : Expr} {ty : Ty} (gives : expr.Gives ty)
    (plain : ty.isStruct = false) : expr.type.scalar?.isSome = true ∧ ty.scalar?.isSome = true ∧
      expr.type.isFloat = ty.isFloat := by
  obtain ⟨present, same⟩ := gives
  have scalars : expr.type.scalar? = ty.scalar? := by
    rw [← Ty.scalar?_decay, same, Ty.scalar?_decay]
  have void : ty.isVoid = false := by rw [← Ty.isVoid_decay, ← same, Ty.isVoid_decay, present]
  have valued := Ty.valued_of_plain plain void
  exact ⟨scalars ▸ valued, valued, by rw [Ty.isFloat_eq, Ty.isFloat_eq, scalars]⟩

namespace Lower

variable {c : Context} {labels : List String} {dst v : Expr} {ty : Ty} {addr : Address}
  {pos : Position} {name : String}

theorem accumulate_meets (fits : c.typed → v.Typed c.env.table c.scope) (gives : c.typed → v.Gives ty)
    (plain : ty.isStruct = false) :
    Meets c labels v.effects (v.lowering.into (accumulatorFor ty)) (Proper c.typed) := by
  refine (v.lowering_sound fits).into (fun is => ?_) (fun is => ?_)
  · rw [Expr.lowering_type]
    exact ((gives is).valued plain).1
  · obtain ⟨_, valued, same⟩ := (gives is).valued plain
    rw [Expr.lowering_type, same]
    exact serves_accumulatorFor valued

theorem accumulator_named (gives : c.typed → v.Gives ty) (plain : ty.isStruct = false) :
    (accumulatorFor ty).Named c.typed :=
  fun is => (serves_accumulatorFor ((gives is).valued plain).2.1).valid

theorem storeConstant?_proper (proper : addr.Proper typed labels)
    (found : storeConstant? v ty addr = some code) : Proper typed labels code := by
  unfold storeConstant? at found
  split at found
  · cases found
  · split at found
    · simp only at found
      split at found <;> cases found
      simp [proper]
    · cases found

/-- A constant is stored straight away, and has no effects. -/
theorem storeEither_meets (fits : c.typed → v.Typed c.env.table c.scope)
    (gives : c.typed → v.Gives ty) (plain : ty.isStruct = false) (proper : addr.Proper c.typed labels) :
    Meets c labels v.effects (match storeConstant? v ty addr with
      | some code => return code
      | none => storeValue v ty addr) (Proper c.typed) := by
  cases found : storeConstant? v ty addr with
  | some code =>
    rw [v.effects_of_constant? (constant_of_storeConstant? (Option.isSome_of_eq_some found))]
    exact .pure (storeConstant?_proper proper found)
  | none =>
    refine .before (accumulate_meets fits gives plain) fun more code grown evaluated => .pure ?_
    refine proper_append.mpr ⟨evaluated, store_proper ?_ (accumulator_named gives plain)⟩
    simpa using proper.mono grown

theorem storeField_meets (fits : c.typed → v.Typed c.env.table c.scope)
    (gives : c.typed → ∀ field, ty.field? name = some field → v.Gives field.type)
    (proper : addr.Proper c.typed labels) :
    Meets c labels v.effects (storeField ty addr name v) (Code.Proper c.typed) := by
  unfold storeField
  split
  · exact .refuse rfl
  · next field found =>
    refine .ite (fun _ => .refuse rfl) fun scalar => ?_
    have plain : field.type.isStruct = false := by
      cases known : field.type <;> simp_all [Ty.isScalar, Ty.isStruct]
    exact storeEither_meets fits (fun is => gives is field found) plain (proper.advance _)

theorem storeFields_meets {fields : List (String × Expr)}
    (fits : c.typed → Expr.FieldsTyped c.env.table c.scope ty fields)
    (proper : addr.Proper c.typed labels) :
    Meets c labels (fields.flatMap fun field => field.2.effects)
      (fields.mapM fun (field, v) => storeField ty addr field v)
      fun more codes => Proper c.typed more codes.flatten := by
  induction fields generalizing labels with
  | nil => exact .pure proper_nil
  | cons entry rest ih =>
    rw [List.mapM_cons, List.flatMap_cons]
    refine .bind (storeField_meets (fun is => (fits is).1.1) (fun is => (fits is).1.2) proper) ?_
    intro afterFirst code grown first
    refine .before (ih (fun is => (fits is).2) (proper.mono grown)) fun more codes wider others => ?_
    exact .pure (by simpa using ⟨first.mono wider, others⟩)

theorem declareStruct_meets {init : Expr} (struct : ty.isStruct = true)
    (fits : c.typed → init.Typed c.env.table (Stmt.initializerScope c.scope name ty init))
    (gives : c.typed → init.Gives ty) :
    Proceeds c labels ((name, ty) :: c.scope) (structEffects name ty init)
      (declareStruct pos name ty init) (Code.Proper c.typed) := by
  unfold declareStruct
  split
  · next lit own fields =>
    refine .after (.addStruct? ty fields) fun more label? _ ⟨constant, known⟩ => ?_
    rw [structEffects, ← constant]
    cases label? with
    | some label =>
      refine .before (.allocate name ty) ?_
      rintro _ slot _ ⟨rfl, _⟩
      exact .pure (copyBytes_proper (Address.proper_frameSlot _)
        (Address.proper_atLabel.mpr (known label rfl)) _)
    | none =>
      refine .bind (.allocate name ty) ?_
      rintro _ slot _ ⟨rfl, _⟩
      have placed {labels} : (Address.frameSlot slot.offset).Proper c.typed labels :=
        Address.proper_frameSlot _
      -- The literal is one of the declared type.
      have stored : c.typed → Expr.FieldsTyped c.env.table ((name, ty) :: c.scope) ty fields := by
        intro is
        have typed := fits is
        rw [Stmt.initializerScope, if_pos struct] at typed
        exact Ty.eq_of_decay_eq struct (gives is).2 ▸ typed
      refine .before (storeFields_meets stored placed) fun further codes _ proper => .pure ?_
      exact Code.proper_append.mpr ⟨zeroBytes_proper placed _, proper⟩
  · next other =>
    have before : Stmt.initializerScope c.scope name ty init = c.scope ∧
        structEffects name ty init = init.effects ++ [.declared name ty] := by
      cases init with
      | struct pos own fields => exact absurd rfl (other _ _ _)
      | _ => exact ⟨rfl, rfl⟩
    rw [before.1] at fits
    rw [before.2]
    refine .ite (fun _ => .refuse rfl) fun _ => .bind ((init.lowering_sound fits).place (by simp)) ?_
    rintro more ⟨code, src⟩ _ placed
    refine .before (.allocate name ty) ?_
    rintro _ slot _ ⟨rfl, _⟩
    refine .step (.release src) fun _ _ => .pure ?_
    exact Code.proper_append.mpr ⟨placed.code,
      copyBytes_proper (Address.proper_frameSlot _) placed.address _⟩

/-- The initializer of a scalar is read before the variable is there, unless it is a constant. -/
theorem declareScalar_meets (plain : ty.isStruct = false)
    (fits : c.typed → init.Typed c.env.table c.scope) (gives : c.typed → init.Gives ty) :
    Proceeds c labels ((name, ty) :: c.scope) (init.effects ++ [.declared name ty])
      (declareScalar name ty init) (Code.Proper c.typed) := by
  unfold declareScalar
  split
  · refine .bind (accumulate_meets fits gives plain) fun more code _ evaluated => ?_
    refine .before (.allocate name ty) ?_
    rintro _ slot _ ⟨rfl, _⟩
    refine .pure (Code.proper_append.mpr ⟨evaluated, ?_⟩)
    exact store_proper (by simp) (accumulator_named gives plain)
  · next const found =>
    have constant : init.constant?.isSome = true := Option.isSome_of_eq_some found
    have free := init.effects_of_constant? constant
    rw [free]
    refine .before (.allocate name ty) fun more slot _ _ => ?_
    have anywhere : init.Typed c.env.table ((name, ty) :: c.scope) := Expr.typed_of_constant? constant
    have placed : (Address.frameSlot slot.offset).Proper c.typed more := Address.proper_frameSlot _
    have stored := storeEither_meets (c := { c with scope := (name, ty) :: c.scope })
      (fun _ => anywhere) gives plain placed
    rwa [free] at stored

theorem declare_meets {init : Option Expr} (fits : c.typed → (Stmt.declaration pos name ty init).Typed
    c.env.table c.env.signature.result c.scope) :
    Proceeds c labels ((name, ty) :: c.scope) (declarationEffects name ty init) (declare pos name ty init)
      (Code.Proper c.typed) := by
  refine .ite (fun _ => .refuse rfl) fun _ => ?_
  cases init with
  | none => exact .before (.allocate name ty) fun _ _ _ _ => .pure Code.proper_nil
  | some init =>
    have gives := fun is => (fits is init rfl).2
    rw [declarationEffects]
    refine .ite (fun struct => ?_) fun plain => .ite (fun _ => .refuse rfl) fun _ => ?_
    · rw [if_pos struct]
      exact declareStruct_meets struct (fun is => (fits is init rfl).1) gives
    · rw [if_neg plain]
      have plain : ty.isStruct = false := eq_false_of_ne_true plain
      have before : Stmt.initializerScope c.scope name ty init = c.scope := by
        cases init <;> simp [Stmt.initializerScope, plain]
      exact declareScalar_meets plain (fun is => before ▸ (fits is init rfl).1) gives

theorem structSource_meets (fits : c.typed → v.Typed c.env.table c.scope) :
    Meets c labels (sourceEffects v) (structSource pos ty v) (Placed c.typed) := by
  unfold structSource
  split
  · next lit own fields =>
    refine .after (.addStruct? ty fields) fun more label? _ ⟨_, known⟩ => ?_
    cases label? with
    | some label => exact .pure ⟨proper_nil, Address.proper_atLabel.mpr (known label rfl)⟩
    | none => exact .refuse rfl
  · next other =>
    have same : sourceEffects v = v.effects := by
      cases v with
      | struct pos own fields => exact absurd rfl (other _ _ _)
      | _ => rfl
    rw [same]
    exact .ite (fun _ => .refuse rfl) fun _ => (v.lowering_sound fits).place (by simp)

section

variable (targets : c.typed → dst.Typed c.env.table c.scope)
  (values : c.typed → v.Typed c.env.table c.scope)

include targets values

theorem assignStruct_meets :
    Meets c labels (sourceEffects v ++ dst.effects) (assignStruct pos dst v) (Proper c.typed) := by
  refine .bind (structSource_meets values) fun afterSource src _ sourced => ?_
  refine .before ((dst.lowering_sound targets).place (by simp)) fun more place grown placed => ?_
  refine .step (.release _) fun _ _ => .step (.release _) fun _ _ => .pure ?_
  simp only [proper_append]
  exact ⟨⟨sourced.code.mono grown, placed.code⟩,
    copyBytes_proper placed.address (sourced.address.mono grown) _⟩

theorem assignScalar_meets (gives : c.typed → v.Gives dst.type) (plain : dst.type.isStruct = false) :
    Meets c labels (v.effects ++ dst.effects) (assignScalar dst v) (Proper c.typed) := by
  have named := accumulator_named gives plain
  refine .bind (accumulate_meets values gives plain) fun afterValue code _ evaluated => ?_
  refine .step (.push fun is => ?_) fun _ _ => ?_
  · exact (serves_accumulatorFor ((gives is).valued plain).2.1).usable
  refine .before ((dst.lowering_sound targets).place (by simp)) ?_
  intro more ⟨placeCode, place⟩ grown placed
  refine .step (.release place) fun _ _ => .step .pop fun _ _ => .pure ?_
  simp only [proper_append]
  exact ⟨⟨evaluated.mono grown, placed.code⟩, store_proper (by simpa using placed.address) named⟩

end

theorem lowerAssignment_meets
    (fits : c.typed → (Stmt.assignment pos dst v).Typed c.env.table c.env.signature.result
      c.scope) :
    Meets c labels (assignmentEffects dst v) (lowerAssignment pos dst v) (Proper c.typed) := by
  have targets := fun is => (fits is).1
  have values := fun is => (fits is).2.1
  have gives := fun is => (fits is).2.2
  rw [assignmentEffects]
  refine .ite (fun _ => .refuse rfl) fun _ => .ite (fun struct => ?_) fun plain =>
    .ite (fun _ => .refuse rfl) fun _ => ?_
  · rw [if_pos struct]
    exact assignStruct_meets targets values
  · rw [if_neg plain]
    have assigned {labels} : Meets c labels (v.effects ++ dst.effects) (assignScalar dst v) _ :=
      assignScalar_meets targets values gives (eq_false_of_ne_true plain)
    cases dst with
    | ident place name ty =>
      refine .bind (.lookup place name) ?_
      rintro _ slot _ ⟨rfl, _⟩
      rw [isSome_storeConstant? v ty (.frameSlot 0) (.frameSlot slot.offset)]
      cases found : storeConstant? v ty (.frameSlot slot.offset) with
      | some code => exact .pure (storeConstant?_proper (Address.proper_frameSlot _) found)
      | none => exact assigned
    | _ => exact assigned

theorem lowerReturn_meets {v : Option Expr} {last : Bool}
    (plain : c.typed → c.env.signature.result.isStruct = false)
    (fits : c.typed → (Stmt.returning pos v).Typed c.env.table c.env.signature.result c.scope) :
    Meets c labels (v.elim [] Expr.effects) (lowerReturn pos v last) (Proper c.typed) := by
  refine .read (fun other agrees => by simp only [agrees.signature, agrees.resultLabel]) ?_
  have exits (labels : List String) :
      Proper c.typed labels (if last then [] else [.jump c.env.resultLabel]) := by
    split <;> simp
  cases v with
  | none => exact .ite (fun _ => .pure (exits labels)) fun _ => .refuse rfl
  | some v =>
    have gives := fun is => (fits is v rfl).2
    refine .ite (fun _ => .refuse rfl) fun _ => ?_
    have evaluated : Meets c labels v.effects
        (v.lowering.into ((Call.resultRegister? c.env.signature.result).getD ⟨.rax, 0⟩))
        (Proper c.typed) := by
      refine (v.lowering_sound fun is => (fits is v rfl).1).into (fun is => ?_) fun is => ?_
      · rw [Expr.lowering_type]
        exact ((gives is).valued (plain is)).1
      · obtain ⟨_, valued, same⟩ := (gives is).valued (plain is)
        rw [Expr.lowering_type, same]
        exact Call.resultRegister?_serves valued _
    exact .before evaluated fun more code _ proper => .pure (proper_append.mpr ⟨proper, exits more⟩)

/-- Only here a node may have no value. -/
theorem lowerExpression_meets (fits : c.typed → v.Typed c.env.table c.scope) :
    Meets c labels v.effects (lowerExpression v) (Proper c.typed) := by
  have sound := v.lowering_sound fits
  refine .ite (fun _ => ?_) fun valued => ?_
  · exact .before sound.value fun more frag _ proper => .pure proper.code
  · have valued : v.type.scalar?.isSome = true := by
      simp only [Bool.or_eq_true, not_or, Bool.not_eq_true] at valued
      exact Ty.valued_of_plain valued.2 valued.1
    rw [← Expr.lowering_type] at valued ⊢
    exact sound.into (fun _ => valued) fun _ => serves_accumulatorFor valued

theorem lowerCondition_meets (fits : c.typed → v.Typed c.env.table c.scope) :
    Meets c labels v.effects (lowerCondition v) (Proper c.typed) := by
  refine .ite (fun _ => .refuse rfl) fun bool => ?_
  have valued := Ty.valued_of_isBool (by simpa using bool)
  have serves : (Register.accumulator.resize 1).Serves false := ⟨rfl, rfl, rfl⟩
  have named : (Register.accumulator.resize 1).Named c.typed := fun _ => serves.valid
  have evaluated : Meets c labels v.effects (v.lowering.into (Register.accumulator.resize 1))
      (Proper c.typed) := by
    rw [← Expr.lowering_type] at valued
    exact (v.lowering_sound fits).into (fun _ => valued.1) fun _ => valued.2 ▸ serves
  exact .before evaluated fun more code _ proper => .pure (by simp [proper, named])

theorem lanes_usable : ∀ lane ∈ Lane.all, lane.general.isUsable = true ∧ lane.float.isUsable = true ∧
    lane.general.isFloat = false ∧ lane.float.isFloat = true := by decide

theorem lowerParameter_meets (method : String) (idx : Nat) (param : Parameter) :
    Proceeds c labels ((param.name, param.type.decay) :: c.scope) [.declared param.name param.type.decay]
      (lowerParameter method idx param) (Proper c.typed) := by
  refine .ite (fun _ => .refuse rfl) fun scalar => .before (.allocate _ _) fun more slot _ _ => ?_
  generalize param.type.decay = ty at scalar
  have pooled := Ty.inPool_registerSize (Ty.valued_of_isScalar (by simpa using scalar))
  split
  · next lane found =>
    obtain ⟨general, float, generals, floats⟩ := lanes_usable lane (List.mem_of_getElem? found)
    have serves : (⟨if ty.isFloat then lane.float else lane.general, ty.registerSize⟩ :
        Register).Serves ty.isFloat := by
      cases class_ : ty.isFloat <;> rw [class_] at pooled
      · exact ⟨general, generals, pooled⟩
      · exact ⟨float, floats, pooled⟩
    exact .pure (store_proper (by simp) fun _ => serves.valid)
  · have scratch : (Register.scratch.resize ty.registerSize).Named c.typed :=
      fun _ => (Register.serves_scratch (Register.inPool_general pooled)).valid
    have caller : ({ base := .reg .framePointer, displacement := 16 + Int64.ofNat idx * Call.slotSize } :
        Address).Proper c.typed more := ⟨fun _ => by simp [Address.registers]; rfl, by simp [Address.label?]⟩
    exact .pure (by simp [scratch, caller])

theorem lowerParameters_meets (method : String) (idx : Nat) (params : List Parameter) :
    Proceeds c labels ((params.map fun param => (param.name, param.type.decay)).reverse ++ c.scope)
      (parameterEffects params) (lowerParameters method idx params) (Proper c.typed) := by
  induction params generalizing c idx labels with
  | nil => exact .pure proper_nil
  | cons param rest ih =>
    refine .bind (lowerParameter_meets method idx param) fun afterFirst code _ proper => ?_
    rw [List.map_cons, List.reverse_cons, List.append_assoc, List.singleton_append]
    refine .before (ih (idx + 1)) fun more others grown rests => .pure ?_
    exact proper_append.mpr ⟨proper.mono grown, rests⟩

/-- The declaration is also noted, for the sake of warnings. -/
theorem lowerDeclaration_ends {init : Option Expr}
    (fits : c.typed → (Stmt.declaration pos name ty init).Typed c.env.table c.env.signature.result
      c.scope) :
    Ends c labels ((name, ty) :: c.scope) (lowerDeclaration pos name ty init)
      (Code.Proper c.typed) := by
  refine .bind (declare_meets fits).ends fun more code _ proper => .of_yields fun frame shows_ => ?_
  exact ⟨code, _, yields_bind.mpr ⟨(), _, yields_modify.mpr rfl, yields_pure.mpr ⟨rfl, rfl⟩⟩,
    shows_.congr rfl (fun _ => id) rfl, proper⟩

/-- Put together from steps that come with these effects, whatever the tree is. -/
def Steps {α : Type} (x : Lower α) (effects : List Effect) : Prop :=
  ∀ env scope, ∃ later post, Proceeds ⟨False, env, scope⟩ [] later effects x post

theorem Steps.pure {α : Type} (v : α) : Steps (Pure.pure v) [] :=
  fun _ _ => ⟨_, fun _ _ => True, .pure trivial⟩

theorem steps_newLabel : Steps newLabel [] := fun _ _ => ⟨_, _, Steady.newLabel⟩

theorem steps_release (located : Located) : Steps (release located) [] :=
  fun _ _ => ⟨_, _, Steady.release located⟩

theorem steps_addStruct? (ty : Ty) (values : List (String × Expr)) : Steps (addStruct? ty values) [] :=
  fun _ _ => ⟨_, _, .addStruct? ty values⟩

theorem steps_lowerParameters (method : String) (idx : Nat) (params : List Parameter) :
    Steps (lowerParameters method idx params) (parameterEffects params) :=
  fun _ _ => ⟨_, _, lowerParameters_meets method idx params⟩

section

variable (pos : Position) (name : String) (ty : Ty) (v : Expr)

theorem steps_into (dst : Register) : Steps (v.lowering.into dst) v.effects :=
  fun env scope => ⟨_, _, (v.lowering_sound (c := ⟨False, env, scope⟩) nofun).into nofun nofun⟩

theorem steps_place : Steps (v.lowering.place none) v.effects :=
  fun env scope => ⟨_, _, (v.lowering_sound (c := ⟨False, env, scope⟩) nofun).place nofun⟩

theorem steps_declare (init : Option Expr) :
    Steps (declare pos name ty init) (declarationEffects name ty init) :=
  fun _ _ => ⟨_, _, declare_meets nofun⟩

theorem steps_storeFields (offset : Int64) (fields : List (String × Expr)) :
    Steps (fields.mapM fun (field, v) => storeField ty (.frameSlot offset) field v)
      (fields.flatMap fun field => field.2.effects) :=
  fun _ _ => ⟨_, _, storeFields_meets nofun (Address.proper_frameSlot _)⟩

theorem steps_lowerAssignment (dst v : Expr) :
    Steps (lowerAssignment pos dst v) (assignmentEffects dst v) :=
  fun _ _ => ⟨_, _, lowerAssignment_meets nofun⟩

theorem steps_lowerReturn (v : Option Expr) (last : Bool) :
    Steps (lowerReturn pos v last) (v.elim [] Expr.effects) :=
  fun _ _ => ⟨_, _, lowerReturn_meets nofun nofun⟩

theorem steps_lowerExpression : Steps (lowerExpression v) v.effects :=
  fun _ _ => ⟨_, _, lowerExpression_meets nofun⟩

theorem steps_lowerCondition : Steps (lowerCondition v) v.effects :=
  fun _ _ => ⟨_, _, lowerCondition_meets nofun⟩

end

end Lower

namespace Stmt

mutual

theorem lower_ends {c : Context} {labels : List String}
    (plain : c.typed → c.env.signature.result.isStruct = false) (last : Bool) : (stmt : Stmt) →
    (c.typed → stmt.Typed c.env.table c.env.signature.result c.scope) →
    Ends c labels (stmt.scopeAfter c.scope) (stmt.lower last) (Proper c.typed)
  | declaration pos name ty init, fits => lowerDeclaration_ends fits
  | assignment pos dst v, fits => (lowerAssignment_meets fits).ends
  | returning pos v, fits => (lowerReturn_meets plain fits).ends
  | expression pos v, fits => (lowerExpression_meets fits).ends
  | conditional pos cond whenTrue none, fits => by
    refine .bind (lowerCondition_meets fun is => (fits is).1).ends fun _ test _ tests => ?_
    refine .step .newLabel fun done _ => ?_
    obtain ⟨_, body⟩ := lowerBlock_ends plain false whenTrue fun is => (fits is).2
    refine .bind (body _).inScope fun more code grown proper => .pure ?_
    simp [tests.mono grown, proper]
  | conditional pos cond whenTrue (some otherwise), fits => by
    refine .bind (lowerCondition_meets fun is => (fits is).1).ends fun _ test _ tests => ?_
    refine .step .newLabel fun done _ => .step .newLabel fun other _ => ?_
    obtain ⟨_, body⟩ := lowerBlock_ends plain false whenTrue fun is => (fits is).2.1
    obtain ⟨_, rest⟩ := lowerBlock_ends plain false otherwise fun is => (fits is).2.2
    refine .bind (body _).inScope fun _ code grown proper => ?_
    refine .bind (rest _).inScope fun more others wider others_ => .pure ?_
    simp [tests.mono (List.Subset.trans grown wider), proper.mono wider, others_]
  | loop pos cond body, fits => by
    refine .step .newLabel fun start _ => .step .newLabel fun done _ => ?_
    refine .bind (lowerCondition_meets fun is => (fits is).1).ends fun _ test _ tests => ?_
    obtain ⟨_, block⟩ := lowerBlock_ends plain false body fun is => (fits is).2
    refine .bind (block _).inScope fun more code grown proper => .pure ?_
    simp [tests.mono grown, proper]
  | block pos body, fits => by
    obtain ⟨_, block⟩ := lowerBlock_ends plain last body fits
    exact (block _).inScope

/-- Nothing is lowered after a return, so the scope at the end is the one there. -/
theorem lowerBlock_ends {c : Context}
    (plain : c.typed → c.env.signature.result.isStruct = false) (top : Bool) : (stmts : List Stmt) →
    (c.typed → BlockTyped c.env.table c.env.signature.result c.scope stmts) →
    ∃ later, ∀ labels, Ends c labels later (lowerBlock top stmts) (Proper c.typed)
  | [], _ => ⟨c.scope, fun _ => .pure proper_nil⟩
  | stmt :: rest, fits => by
    have first (labels : List String) : Ends c labels (stmt.scopeAfter c.scope)
        (stmt.lower (top && rest.isEmpty)) (Proper c.typed) :=
      lower_ends plain (top && rest.isEmpty) stmt fun is => (fits is).1
    obtain ⟨later, others⟩ := lowerBlock_ends (c := { c with scope := stmt.scopeAfter c.scope }) plain top
      rest fun is => (fits is).2
    -- The statement comes first, whatever follows.
    have opened {last : List (String × Ty)} {tail : Code → Lower Code}
        (ends : ∀ labels before, Proper c.typed labels before →
          Ends { c with scope := stmt.scopeAfter c.scope } labels last (tail before) (Proper c.typed))
        (labels : List String) : Ends c labels last (do
          let comment ← commentFor stmt
          let code ← stmt.lower (top && rest.isEmpty)
          tail (comment ++ code)) (Proper c.typed) := by
      have commented : Ends c labels c.scope (commentFor stmt) (Proper c.typed) :=
        .of_yields fun frame shows_ => ⟨_, frame, yields_commentFor.mpr ⟨rfl, rfl⟩, shows_, by
          split <;> simp⟩
      exact .bind commented fun _ comment _ comments => .bind (first _) fun more code grown proper =>
        ends more _ (proper_append.mpr ⟨comments.mono grown, proper⟩)
    have continued := opened fun labels before proper => .bind (others labels)
      fun more code grown rests => .pure (proper_append.mpr ⟨proper.mono grown, rests⟩)
    rw [lowerBlock]
    cases stmt.isReturn with
    | false => exact ⟨later, continued⟩
    | true =>
      cases rest with
      | nil => exact ⟨later, continued⟩
      | cons next rest =>
        exact ⟨stmt.scopeAfter c.scope, opened fun labels before proper =>
          .step (.warn _ _ _) fun _ _ => .pure proper⟩

end

end Stmt
end Nasm64
