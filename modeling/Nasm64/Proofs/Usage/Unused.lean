import Nasm64.Proofs.Layout.Method
import Nasm64.Proofs.Usage.Resolution

/-! Warnings about variables that are never used. While a body is lowered, its frame stands for its
names, so the slots that nothing refers to are those of the variables that no name denotes. -/
namespace Nasm64

open Lower

namespace Lower

variable {α β : Type}

/-- While the computation runs, its frame goes on to stand for the names that are resolved. -/
def Simulates (x : Lower α) (needs : List Need) (resolve : Resolution → Resolution) : Prop :=
  ∀ ⦃env frame value next state⦄, Yields x env frame value next → frame.sketch.Mirrors state →
    Need.extent frame.sketch.position.toInt needs < 2 ^ 63 →
    next.sketch.Mirrors (resolve state) ∧ frame.sketch.Advances needs next.sketch

namespace Simulates

variable {x : Lower α} {k : α → Lower β} {needs more : List Need} {resolve later : Resolution → Resolution}

theorem of_still (still : ∀ ⦃env frame value next⦄, Yields x env frame value next → next.sketch = frame.sketch) :
    Simulates x [] id := by
  intro env frame v next state run mirrors _
  rw [still run]
  exact ⟨mirrors, .refl _⟩

theorem bind (first : Simulates x needs resolve) (rest : ∀ v, Simulates (k v) more later) :
    Simulates (x >>= k) (needs ++ more) (later ∘ resolve) := by
  intro env frame v next state run mirrors fits
  rw [Need.extent_append] at fits
  obtain ⟨inner, mid, ran, continued⟩ := yields_bind.mp run
  have further := Need.le_extent (Need.extent frame.sketch.position.toInt needs) more
  obtain ⟨held, advances⟩ := first ran mirrors (by omega)
  rw [← advances.reached] at fits
  obtain ⟨after, grown⟩ := rest inner continued held fits
  exact ⟨after, advances.trans grown⟩

theorem after (first : Simulates x [] id) (rest : ∀ v, Simulates (k v) needs resolve) :
    Simulates (x >>= k) needs resolve := first.bind rest

theorem before (first : Simulates x needs resolve) (rest : ∀ v, Simulates (k v) [] id) :
    Simulates (x >>= k) needs resolve := by
  have whole := first.bind rest
  rwa [List.append_nil] at whole

theorem of_silent (steps : Steps x []) : Simulates x [] id := of_still fun _ _ _ _ run => steps.replayed run

theorem returning {f : α → β} (first : Simulates x needs resolve) :
    Simulates (x >>= fun v => pure (f v)) needs resolve := first.before fun _ => .of_silent (.pure _)

/-- Steps that declare nothing mention the names that they find. -/
theorem of_reading (steps : Steps x effects) (reads : Effect.Reads effects found)
    (same : Effect.needs effects = needs) (alike : ∀ name, name ∈ found ↔ name ∈ names) :
    Simulates x needs (·.mention names) := by
  intro env frame v next state run mirrors fits
  subst same
  rw [steps.replayed run]
  obtain ⟨held, advances⟩ := reads.mirrors mirrors fits
  exact ⟨held.mention_congr alike, advances⟩

theorem of_expression {expr : Expr} (steps : Steps x expr.effects) :
    Simulates x expr.needs (·.mention expr.mentions) :=
  .of_reading steps expr.reads expr.needs_effects fun _ => .rfl

theorem inScope {body : Lower α} (inner : Simulates body needs resolve) :
    Simulates (inScope body) needs (·.within resolve) := by
  intro env frame v next state run mirrors fits
  obtain ⟨_, _, got, run⟩ := yields_bind.mp run
  obtain ⟨rfl, rfl⟩ := yields_get.mp got
  obtain ⟨inner_, mid, ran, run⟩ := yields_bind.mp run
  obtain ⟨_, _, restored, run⟩ := yields_bind.mp run
  obtain ⟨_, rfl⟩ := yields_pure.mp run
  obtain rfl := yields_modify.mp restored
  obtain ⟨held, advances⟩ := inner ran mirrors fits
  refine ⟨⟨held.natural, advances.binds mirrors.bound, held.declared, held.apart, held.taken, held.used⟩,
    advances.reached, advances.added⟩

end Simulates

theorem simulates_commentFor (stmt : Stmt) : Simulates (commentFor stmt) [] id := by
  refine .of_still fun env frame code next run => ?_
  rw [(yields_commentFor.mp run).2]

theorem simulates_lowerParameters (method : String) (idx : Nat) (params : List Parameter) :
    Simulates (lowerParameters method idx params) (parameterNeeds params) fun state =>
      { state with bindings := (params.map fun param => (param.name, none)).reverse ++ state.bindings } := by
  intro env frame code next state run mirrors fits
  rw [(steps_lowerParameters method idx params).replayed run]
  generalize frame.sketch = sketch at mirrors fits
  clear run
  induction params generalizing sketch state with
  | nil => exact ⟨mirrors, .refl _⟩
  | cons param rest ih =>
    change Need.extent ((Need.ofType param.type.decay).place _) (parameterNeeds rest) < 2 ^ 63 at fits
    have further :=
      Need.le_extent ((Need.ofType param.type.decay).place sketch.position.toInt) (parameterNeeds rest)
    obtain ⟨held, advances⟩ := mirrors.parameter param.name param.type.decay (by omega)
    rw [← show _ = (Need.ofType param.type.decay).place sketch.position.toInt from advances.reached] at fits
    obtain ⟨after, grown⟩ := ih _ held fits
    refine ⟨?_, advances.trans grown⟩
    simpa [parameterEffects] using after

/-- Unless its initializer is a literal, a variable is declared when that was read. -/
theorem declarationEffects_eq (name : String) (ty : Ty) {init : Option Expr}
    (plain : ∀ v ∈ init, v.isStructLiteral = false) :
    declarationEffects name ty init = init.elim [] Expr.effects ++ [.declared name ty] := by
  cases init with
  | none => rfl
  | some init =>
    rw [declarationEffects]
    split
    · have other := plain init rfl
      cases init <;> first | rfl | cases other
    · rfl

theorem simulates_lowerDeclaration (pos : Position) (name : String) (ty : Ty) {init : Option Expr}
    (plain : ∀ v ∈ init, v.isStructLiteral = false) :
    Simulates (lowerDeclaration pos name ty init) (declarationNeeds ty init) fun state =>
      (state.mention (init.elim [] Expr.mentions)).declare name pos := by
  intro env frame code next state run mirrors fits
  obtain ⟨_, mid, ran, run⟩ := yields_bind.mp run
  obtain ⟨_, _, noted, run⟩ := yields_bind.mp run
  obtain ⟨_, rfl⟩ := yields_pure.mp run
  obtain rfl := yields_modify.mp noted
  have reads : Effect.Reads (init.elim [] Expr.effects) (init.elim [] Expr.mentions) := by
    cases init with
    | none => exact .nil
    | some v => exact v.reads
  have effects := declarationEffects_eq name ty plain
  have replayed := (steps_declare pos name ty init).replayed ran
  rw [← needs_declarationEffects name, effects, Effect.needs_append] at fits ⊢
  rw [effects, List.foldl_append] at replayed
  rw [Need.extent_append] at fits
  have further := Need.le_extent
    (Need.extent frame.sketch.position.toInt (Effect.needs (init.elim [] Expr.effects)))
    (Effect.needs [.declared name ty])
  obtain ⟨held, advances⟩ := reads.mirrors mirrors (by omega)
  rw [← advances.reached] at fits
  generalize (init.elim [] Expr.effects).foldl Effect.replay frame.sketch = before at held advances replayed fits
  have located : ((mid.find? name).map Variable.offset).getD 0 = (Need.ofType ty).next before.position := by
    rw [← lookup_sketch, replayed]
    simp [Effect.replay]
  have same : { mid.sketch with
      locals := mid.sketch.locals ++ [Local.mk name (((mid.find? name).map Variable.offset).getD 0) pos] } =
      { Effect.replay before (.declared name ty) with
        locals := before.locals ++ [Local.mk name ((Need.ofType ty).next before.position) pos] } := by
    rw [located, replayed]
    rfl
  obtain ⟨after, grown⟩ := held.noted name pos ty fits same
  exact ⟨after, advances.trans grown⟩

/-- A variable that is assigned to is found once more than it is mentioned. -/
theorem simulates_lowerAssignment (pos : Position) (dst v : Expr) (plain : v.isStructLiteral = false) :
    Simulates (lowerAssignment pos dst v) (v.needs ++ dst.needs) (·.mention (v.mentions ++ dst.mentions)) := by
  have both : Effect.Reads (v.effects ++ dst.effects) (v.mentions ++ dst.mentions) := v.reads.append dst.reads
  have steps := steps_lowerAssignment pos dst v
  have needs := needs_assignmentEffects dst v
  by_cases record : dst.type.isStruct = true
  · have source : sourceEffects v = v.effects := by
      cases v <;> first | rfl | cases plain
    rw [assignmentEffects, if_pos record, source] at steps needs
    exact .of_reading steps both needs fun _ => .rfl
  · rw [assignmentEffects, if_neg record] at steps needs
    cases dst with
    | ident place name ty =>
      rw [scalarEffects] at steps needs
      by_cases stored : (storeConstant? v ty (.frameSlot 0)).isSome = true
      · rw [if_pos stored] at steps needs
        refine .of_reading steps (.found .nil) needs fun other => ?_
        rw [v.mentions_of_constant? (constant_of_storeConstant? stored)]
        rfl
      · rw [if_neg stored] at steps needs
        refine .of_reading steps (.found both) needs fun other => ?_
        simp only [Expr.mentions_ident, List.mem_cons, List.mem_append, List.not_mem_nil, or_false]
        tauto
    | _ => exact .of_reading steps both needs fun _ => .rfl

end Lower

namespace Stmt

mutual

theorem lower_simulates (last : Bool) : (stmt : Stmt) → (∀ node ∈ stmt.nodes, node.isStructLiteral = false) →
    Simulates (stmt.lower last) stmt.needs stmt.resolve
  | declaration pos name ty init, plain => simulates_lowerDeclaration pos name ty fun v given => by
    cases given
    exact plain v List.mem_cons_self
  | assignment pos dst v, plain =>
    simulates_lowerAssignment pos dst v (plain v (List.mem_append_right _ List.mem_cons_self))
  | returning pos none, _ => .of_reading (steps_lowerReturn pos none last) .nil rfl fun _ => .rfl
  | returning pos (some v), _ => .of_expression (steps_lowerReturn pos v last)
  | expression _ v, _ => .of_expression (steps_lowerExpression v)
  | conditional _ cond whenTrue none, plain => by
    obtain ⟨_, inner⟩ := List.forall_mem_append.mp plain
    exact (Simulates.of_expression (steps_lowerCondition cond)).bind fun _ =>
      .after (.of_silent steps_newLabel) fun _ =>
      (Simulates.inScope (lowerBlock_simulates false whenTrue inner)).returning
  | conditional _ cond whenTrue (some otherwise), plain => by
    obtain ⟨_, inner⟩ := List.forall_mem_append.mp plain
    obtain ⟨first, second⟩ := List.forall_mem_append.mp inner
    exact (Simulates.of_expression (steps_lowerCondition cond)).bind fun _ =>
      .after (.of_silent steps_newLabel) fun _ =>
      .after (.of_silent steps_newLabel) fun _ =>
        (Simulates.inScope (lowerBlock_simulates false whenTrue first)).bind fun _ =>
          (Simulates.inScope (lowerBlock_simulates false otherwise second)).returning
  | loop _ cond body, plain => by
    obtain ⟨_, inner⟩ := List.forall_mem_append.mp plain
    exact .after (.of_silent steps_newLabel) fun _ => .after (.of_silent steps_newLabel) fun _ =>
      (Simulates.of_expression (steps_lowerCondition cond)).bind fun _ =>
        (Simulates.inScope (lowerBlock_simulates false body inner)).returning
  | block _ body, plain => .inScope (lowerBlock_simulates last body plain)

theorem lowerBlock_simulates (top : Bool) : (stmts : List Stmt) →
    (∀ node ∈ nodesOf stmts, node.isStructLiteral = false) →
    Simulates (lowerBlock top stmts) (blockNeeds stmts) (resolveBlock stmts)
  | [], _ => .of_silent (.pure _)
  | stmt :: rest, plain => by
    obtain ⟨here, there⟩ := List.forall_mem_append.mp plain
    have first := lower_simulates (top && rest.isEmpty) stmt here
    have others := lowerBlock_simulates top rest there
    have resolved : resolveBlock (stmt :: rest) =
        (if stmt.isReturn then id else resolveBlock rest) ∘ stmt.resolve := by
      funext state
      rw [resolveBlock, Function.comp_apply]
      split <;> rfl
    rw [resolved]
    refine .after (simulates_commentFor stmt) fun _ => first.bind fun _ => ?_
    cases returns : stmt.isReturn with
    | false => exact others.returning
    | true =>
      cases rest with
      | nil => exact others.returning
      | cons next rest => 
        exact .after (.of_silent fun _ _ => ⟨_, _, .warn _ _ _⟩) fun _ => .of_silent (.pure _)

end

end Stmt

namespace Lower.Frame.Sketch.Mirrors

variable {sketch : Sketch} {state : Resolution}

/-- Slots are apart, so that each has one owner. -/
theorem owner_eq_some_iff (mirrors : sketch.Mirrors state) (noted : sketch.locals[number]? = some slot) :
    sketch.owner offset = some number ↔ slot.offset = offset := by
  obtain ⟨inside, rfl⟩ := List.getElem?_eq_some_iff.mp noted
  rw [owner, List.findIdx?_eq_some_iff_getElem]
  constructor
  · rintro ⟨_, same, _⟩
    exact eq_of_beq same
  · rintro rfl
    refine ⟨inside, beq_self_eq_true _, fun earlier before same => ?_⟩
    exact List.pairwise_iff_getElem.mp mirrors.apart earlier number _ inside before (eq_of_beq same)

/-- The variables that no name denotes are those whose slot nothing refers to. -/
theorem unused_eq (mirrors : sketch.Mirrors state) : state.unused.map Declared.warning =
    (sketch.locals.filter fun slot => !sketch.referenced.contains slot.offset).map Local.unused := by
  have alike : ∀ entry ∈ sketch.locals.zipIdx,
      (!state.used.contains entry.2) = !sketch.referenced.contains entry.1.offset := by
    rintro ⟨slot, number⟩ listed
    have noted := List.mem_zipIdx_iff_getElem?.mp listed
    have same : number ∈ state.used ↔ slot.offset ∈ sketch.referenced := by
      simp only [mirrors.used, mirrors.owner_eq_some_iff noted, exists_eq_right']
    simp only [List.contains_eq_mem, same]
  calc state.unused.map Declared.warning
    _ = (sketch.locals.zipIdx.filter fun entry => !state.used.contains entry.2).map
        fun entry => entry.1.unused := by
      rw [Resolution.unused, mirrors.declared, List.zipIdx_map, List.filter_map, List.map_map, List.map_map]
      rfl
    _ = (sketch.locals.zipIdx.filter fun entry => !sketch.referenced.contains entry.1.offset).map
        fun entry => entry.1.unused := by rw [List.filter_congr alike]
    _ = _ := by
      conv_rhs => rw [← List.zipIdx_map_fst 0 sketch.locals, List.filter_map, List.map_map]
      rfl

end Lower.Frame.Sketch.Mirrors

theorem Method.lowerBody_simulates (method : Method)
    (plain : ∀ node ∈ Stmt.nodesOf (method.body.getD []), node.isStructLiteral = false) :
    Simulates method.lowerBody method.needs fun state => Stmt.resolveBlock (method.body.getD [])
      { state with
        bindings := (method.parameters.map fun param => (param.name, none)).reverse ++
          state.bindings } := by
  refine (simulates_lowerParameters _ _ _).bind fun _ => ?_
  refine (Stmt.lowerBlock_simulates true (method.body.getD []) plain).before fun _ => .of_silent ?_
  exact fun _ _ => ⟨_, fun _ _ => True, .get (fun _ _ => rfl) fun _ _ => .ite (fun _ => .fail nofun) fun _ =>
    .pure trivial⟩

/-- Warnings about unused variables are exact. Let a method body be lowered that has no struct literals
and whose slots do not reach beyond the words. When warnings of this kind are wanted, one is given for
each variable that is declared in the statements lowered and that no name in them denotes, in order of
declaration. -/
theorem unused_variables_reported {method : Method} {env : Env} {code : Code} {frame : Frame}
    (wanted : env.hasWarning .extra = true)
    (plain : ∀ node ∈ Stmt.nodesOf (method.body.getD []), node.isStructLiteral = false)
    (fits : Need.extent 0 method.needs < 2 ^ 63)
    (lowered : Yields method.lowerBody env {} code frame) :
    ∃ saved last final, Yields reserveSaved env frame saved last ∧ Yields warnUnused env last () final ∧
      final.warnings = frame.warnings ++ method.resolution.unused.map Declared.warning := by
  have blank : Frame.sketch {} |>.Mirrors {} :=
    ⟨Int.le_refl 0, .nil, rfl, .nil, by simp [Frame.sketch], by simp [Frame.sketch]⟩
  obtain ⟨mirrors, _⟩ := method.lowerBody_simulates plain lowered blank fits
  simp only [List.append_nil] at mirrors
  obtain ⟨saved, last, reserved⟩ := reserveSaved_succeeds env frame
  obtain ⟨_, final, warned⟩ := idle_warnUnused.succeeds env last
  refine ⟨saved, last, final, reserved, warned, ?_⟩
  obtain ⟨_, _, got, reserving⟩ := yields_bind.mp reserved
  obtain ⟨rfl, rfl⟩ := yields_get.mp got
  obtain ⟨_, _, moved⟩ := preserveAll_handsOut reserving
  rw [warnUnused_eq warned, if_pos wanted, moved]
  exact congrArg (frame.warnings ++ ·) mirrors.unused_eq.symm

/-- A method that declares one name again in the same block, in a nested one and after a return. -/
def redeclaringMethod : Method :=
  let int : Ty := .prim .i64
  let named (name : String) : Expr := .ident {} name int
  { position := {}
    name := "main"
    parameters := [⟨"a", int⟩]
    result := int
    body := some [
      .declaration ⟨1, 1, 0⟩ "b" int (some (named "a")),
      .declaration ⟨2, 1, 0⟩ "a" int (some (.number {} 7 int)),
      .block {} [
        .declaration ⟨3, 1, 0⟩ "b" int (some (named "b")),
        .declaration ⟨4, 1, 0⟩ "c" int none,
        .assignment {} (named "c") (named "a")],
      .declaration ⟨5, 1, 0⟩ "a" (.pointer int) (some (.addressOf {} (named "a"))),
      .returning {} (some (named "b")),
      .expression {} (named "a")] }

/-- Of the two variables named `b` the inner one is never used, and of those named `a` the second. -/
theorem unused_variables_reported_redeclared :
    ∃ code frame saved last final,
      Yields redeclaringMethod.lowerBody ⟨0, redeclaringMethod.signature, ⟨[]⟩, some {}⟩ {} code frame ∧
      Yields reserveSaved ⟨0, redeclaringMethod.signature, ⟨[]⟩, some {}⟩ frame saved last ∧
      Yields warnUnused ⟨0, redeclaringMethod.signature, ⟨[]⟩, some {}⟩ last () final ∧
      final.warnings = frame.warnings ++
        [⟨.extra, ⟨3, 1, 0⟩, "variable 'b' is declared but never used"⟩,
          ⟨.extra, ⟨5, 1, 0⟩, "variable 'a' is declared but never used"⟩] := by
  obtain ⟨code, frame, lowered, _⟩ := Yields.of_check redeclaringMethod.lowerBody
    ⟨0, redeclaringMethod.signature, ⟨[]⟩, some {}⟩ {} (fun _ => true) (by decide +kernel)
  obtain ⟨saved, last, final, reserved, warned, listed⟩ :=
    unused_variables_reported (by decide) (by decide) (by decide +kernel) lowered
  refine ⟨code, frame, saved, last, final, lowered, reserved, warned, listed.trans ?_⟩
  exact congrArg (frame.warnings ++ ·) (by decide +kernel)

end Nasm64
