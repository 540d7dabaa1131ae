import Nasm64.Proofs.Echo.Statement
import Nasm64.Proofs.Layout.Method

/-! The scope that an initializer is read in. It is the one before the declaration when the name that
is declared does not matter to the initializer. -/
namespace Nasm64

open Lower Attempt Pairing

/-- A literal of a struct type with values that are not constants. -/
def Expr.isComputedLiteral (ty : Ty) : Expr → Bool
  | struct _ _ fields => (DataSection.constantFields? ty.fields fields).isNone
  | _ => false

namespace Lower

/-- Two runs of one environment in the given scopes, which matter by what names denote there. -/
def Pairing.scopes (env : Env) (scope other : List (String × Variable)) : Pairing where
  left := env
  right := env
  related margin twin := margin.scope = scope ∧ twin.scope = other ∧ margin.warnings = twin.warnings
  names name := scope.lookup name = other.lookup name
  agrees := .refl env
  warned := by
    rintro margin twin warning ⟨here, there, same⟩
    unfold Margin.warn
    by_cases wanted : env.hasWarning warning.kind = true
    · rw [if_pos wanted, if_pos wanted]
      exact ⟨here, there, by rw [same]⟩
    · rw [if_neg wanted, if_neg wanted]
      exact ⟨here, there, same⟩
  found := by
    rintro margin twin name same ⟨rfl, rfl, _⟩
    exact same

variable {α β : Type} {env : Env} {frame : Frame} {name other : String} {ty : Ty} {init : Expr}

theorem Pairing.scopes_matches (frame : Frame) (scope : List (String × Variable)) :
    (scopes env frame.scope scope).Matches frame { frame with scope } :=
  ⟨⟨frame.warnings, scope⟩, ⟨rfl, rfl, rfl⟩, rfl⟩

/-- What does the same whatever else is in scope declares nothing itself. -/
theorem Repeats.scope_eq {x : Lower α} (repeats : Repeats (.scopes env frame.scope frame.scope) x)
    {v : α} {next : Frame} (run : x env frame = .ok (v, next)) : next.scope = frame.scope := by
  have both := repeats (scopes_matches frame frame.scope)
  rw [show x (scopes env frame.scope frame.scope).left frame = _ from run] at both
  obtain ⟨_, _, _, _, ⟨scope, _⟩, _⟩ := both.exists_ok
  exact scope

theorem agree_before {f g : α → Lower β} {post : β × Frame → β × Frame → Prop}
    (first : Repeats (.scopes env frame.scope frame.scope) x)
    (rest : ∀ v next, Yields x env frame v next → next.scope = frame.scope →
      Agree post (f v env next) (g v env next)) :
    Agree post ((x >>= f) env frame) ((x >>= g) env frame) := by
  show Agree post (x env frame >>= _) (x env frame >>= _)
  cases run : x env frame with
  | error halt => exact .error
  | ok pair => exact rest pair.1 pair.2 run (first.scope_eq run)

/-- The frame in which a variable is declared. -/
def Frame.declaring (frame : Frame) (name : String) (slot : Variable) : Frame :=
  { frame with scope := (name, slot) :: frame.scope }

/-- The same was done in both runs, which declare one variable under two names. -/
def DeclaredAs (scope : List (String × Variable)) (name other : String) (first second : Code × Frame) :
    Prop :=
  first.1 = second.1 ∧ ∃ (rest : Frame) (slot : Variable), rest.scope = scope ∧
    first.2 = rest.declaring name slot ∧ second.2 = rest.declaring other slot

theorem agree_allocate {f g : Variable → Lower β} {post : β × Frame → β × Frame → Prop}
    (rest : ∀ (start : Frame) (slot : Variable), start.scope = frame.scope →
      Agree post (f slot env (start.declaring name slot)) (g slot env (start.declaring other slot))) :
    Agree post ((allocate name ty >>= f) env frame) ((allocate other ty >>= g) env frame) :=
  rest (frame.reserve ty.size ty.align).2 (frame.allocate name ty).1 rfl

theorem agree_after {f : α → Code} {start : Frame}
    (repeats : Repeats (.scopes env ((name, slot) :: start.scope) ((other, slot) :: start.scope))
      x) :
    Agree (DeclaredAs start.scope name other)
      ((x >>= fun v => pure (f v)) env (start.declaring name slot))
      ((x >>= fun v => pure (f v)) env (start.declaring other slot)) := by
  have matched : (scopes env ((name, slot) :: start.scope) ((other, slot) :: start.scope)).Matches
      (start.declaring name slot) (start.declaring other slot) :=
    scopes_matches (start.declaring name slot) _
  apply (repeats matched).bind
  rintro ⟨v, next⟩ ⟨_, _⟩ ⟨rfl, margin, ⟨here, there, same⟩, rfl⟩
  refine .ok ⟨rfl, { next with scope := start.scope }, slot, rfl, ?_, ?_⟩
  · show next = { next with scope := _ }
    rw [← show next.scope = (name, slot) :: start.scope from here]
  · show next.withMargin margin = { next with scope := _ }
    rw [← show margin.scope = (other, slot) :: start.scope from there, Frame.withMargin, ← same]
    rfl

/-- A name other than the two denotes the same variable, whichever of them is declared. -/
theorem lookup_declaring {scope : List (String × Variable)} {slot : Variable} {mentioned : String}
    (apart : mentioned ≠ name) (fresh : mentioned ≠ other) :
    ((name, slot) :: scope).lookup mentioned = ((other, slot) :: scope).lookup mentioned := by
  rw [List.lookup_cons, List.lookup_cons, beq_false_of_ne apart, beq_false_of_ne fresh]

/-- Variables declared by copying, or by a literal that does not name them. -/
theorem declareStruct_agree (pos : Position) (fresh : other ∉ init.mentions)
    (apart : init.isComputedLiteral ty = true → name ∉ init.mentions) :
    Agree (DeclaredAs frame.scope name other) (declareStruct pos name ty init env frame)
      (declareStruct pos other ty init env frame) := by
  unfold declareStruct
  split
  · next lit own fields =>
    apply agree_before (steps_addStruct? ty fields).repeats_silent
    intro answer next added kept
    rw [← kept]
    cases answer with
    | some label =>
      apply agree_allocate
      intro start slot same
      rw [← same]
      exact .ok ⟨rfl, start, slot, rfl, rfl, rfl⟩
    | none =>
      obtain ⟨_, _, _, constant, _⟩ := (Proceeds.addStruct? (c := ⟨False, env, []⟩) ty fields).yields
        (frame.shows_nothing _ _) added
      have absent : name ∉ (Expr.struct lit own fields).mentions :=
        apart (by rw [Expr.isComputedLiteral, ← Option.not_isSome, ← constant]; rfl)
      apply agree_allocate
      intro start slot same
      rw [← same]
      apply agree_after
      refine (steps_storeFields _ _ _).repeats_reading (Expr.reads_fields fields) ?_
      intro mentioned mem
      apply lookup_declaring
      · rintro rfl
        exact absent mem
      · rintro rfl
        exact fresh mem
  · by_cases differs : (!init.type.same ty) = true
    · rw [if_pos differs, if_pos differs]
      exact .error
    · rw [if_neg differs, if_neg differs]
      apply agree_before ((steps_place init).repeats_reading init.reads fun _ _ => rfl)
      intro src next _ kept
      rw [← kept]
      apply agree_allocate
      intro start slot same
      rw [← same]
      exact agree_after (steps_release _).repeats_silent

/-- Scalars are declared when the initializer was evaluated, unless it is a constant. -/
theorem declareScalar_agree :
    Agree (DeclaredAs frame.scope name other) (declareScalar name ty init env frame)
      (declareScalar other ty init env frame) := by
  unfold declareScalar
  cases const : init.constant? with
  | none =>
    apply agree_before ((steps_into init _).repeats_reading init.reads fun _ _ => rfl)
    intro code next _ kept
    rw [← kept]
    apply agree_allocate
    intro start slot same
    rw [← same]
    exact .ok ⟨rfl, start, slot, rfl, rfl, rfl⟩
  | some v =>
    apply agree_allocate
    intro start slot same
    rw [← same]
    cases storeConstant? init ty (.frameSlot slot.offset) with
    | some code => exact .ok ⟨rfl, start, slot, rfl, rfl, rfl⟩
    | none =>
      apply agree_after
      refine (steps_into init _).repeats_reading init.reads ?_
      rw [Expr.mentions_of_constant? (by rw [const]; rfl)]
      rintro _ ⟨⟩

theorem declare_agree (pos : Position) (initialized : ty.isScalar = true ∨ ty.isStruct = true)
    (fresh : other ∉ init.mentions)
    (apart : init.isComputedLiteral ty = true → name ∉ init.mentions) :
    Agree (DeclaredAs frame.scope name other) (declare pos name ty (some init) env frame)
      (declare pos other ty (some init) env frame) := by
  unfold declare
  cases ty with
  | void => rcases initialized with no | no <;> cases no
  | array length element => rcases initialized with no | no <;> cases no
  | struct own fields => exact declareStruct_agree pos fresh apart
  | prim primitive => exact declareScalar_agree
  | pointer dst => exact declareScalar_agree

/-- The frame after a declaration: the variable is in scope, and noted as declared. -/
def Frame.declaringAt (frame : Frame) (name : String) (slot : Variable) (position : Position) : Frame :=
  { frame.declaring name slot with locals := frame.locals ++ [⟨name, slot.offset, position⟩] }

theorem Frame.find?_declaring (frame : Frame) (name : String) (slot : Variable) :
    (frame.declaring name slot).find? name = some slot := by
  show ((name, slot) :: frame.scope).lookup name = some slot
  rw [List.lookup_cons, beq_self_eq_true]

/-- Whatever a name denoted before it is declared, it denotes the new variable afterwards. -/
theorem lookup_shadowed {scope : List (String × Variable)} {slot hidden : Variable} (mentioned : String) :
    ((name, slot) :: scope).lookup mentioned = ((name, slot) :: (name, hidden) :: scope).lookup mentioned := by
  by_cases same : mentioned = name
  · simp [same]
  · simp [List.lookup_cons, beq_false_of_ne same]

/-- The values of a literal are read in the scope that the declaration makes. -/
theorem declareStruct_hides (pos lit : Position) (own : Ty) (fields : List (String × Expr))
    (hidden : Variable) :
    Agree (fun first second => first.1 =
      second.1) (declareStruct pos name ty (.struct lit own fields) env frame)
      (declareStruct pos name ty (.struct lit own fields) env (frame.declaring name hidden)) := by
  have matched : (scopes env frame.scope ((name, hidden) :: frame.scope)).Matches frame
      (frame.declaring name hidden) := scopes_matches frame _
  apply ((steps_addStruct? ty fields).repeats_silent matched).bind
  rintro ⟨answer, next⟩ ⟨_, _⟩ ⟨rfl, margin, ⟨here, there, same⟩, rfl⟩
  cases answer with
  | some label => exact .ok rfl
  | none =>
    have again : (scopes env ((name, (next.allocate name ty).1) :: frame.scope)
        ((name, (next.allocate name ty).1) :: (name, hidden) :: frame.scope)).Matches
        (next.allocate name ty).2 ((next.withMargin margin).allocate name ty).2 :=
      ⟨⟨margin.warnings, (name, (next.allocate name ty).1) :: margin.scope⟩,
        ⟨congrArg _ here, congrArg _ there, same⟩, rfl⟩
    apply ((steps_storeFields _ _ _).repeats_reading (Expr.reads_fields fields)
      (fun mentioned _ => lookup_shadowed mentioned) again).bind
    rintro ⟨code, _⟩ ⟨_, _⟩ ⟨rfl, _⟩
    exact .ok rfl

end Lower

/-- The initializer of a variable is read in the scope before the declaration: declared under a name
that the initializer does not mention, the variable gets the same code in the same slot, or the same
error is reported. A struct literal has to be excepted when it names the variable. If it is not
constant, its values are read when the variable is declared, so the name denotes that variable there
and nothing depends on what it denoted before. -/
theorem initializer_read_before_declaration (env : Env) (frame : Frame) (position : Position)
    (name : String) (ty : Ty) (init : Expr) (last : Bool) :
    (∀ other : String, (ty.isScalar = true ∨ ty.isStruct = true) → other ∉ init.mentions →
      (init.isComputedLiteral ty = true → name ∉ init.mentions) →
      Agree (fun first second => first.1 = second.1 ∧ ∃ (rest : Frame) (slot : Variable),
          rest.scope = frame.scope ∧ first.2 = rest.declaringAt name slot position ∧
            second.2 = rest.declaringAt other slot position)
        ((Stmt.declaration position name ty (some init)).lower last env frame)
        ((Stmt.declaration position other ty (some init)).lower last env frame)) ∧
    (∀ literal own fields, init = .struct literal own fields → ty.isStruct = true → ∀ hidden : Variable,
      Agree (fun first second => first.1 = second.1)
        ((Stmt.declaration position name ty (some init)).lower last env frame)
        ((Stmt.declaration position name ty (some init)).lower last env (frame.declaring name hidden))) := by
  constructor
  · intro other initialized fresh apart
    apply (declare_agree position initialized fresh apart).bind
    rintro ⟨code, next⟩ ⟨_, after⟩ ⟨rfl, rest, slot, same, rfl, rfl⟩
    refine .ok ⟨rfl, rest, slot, same, ?_, ?_⟩
    · simp only [Frame.find?_declaring]
      rfl
    · simp only [Frame.find?_declaring]
      rfl
  · rintro literal own fields rfl struct hidden
    cases ty with
    | struct other members =>
      apply (declareStruct_hides position literal own fields hidden).bind
      rintro ⟨code, next⟩ ⟨_, after⟩ rfl
      exact .ok rfl
    | _ => cases struct

def Lower.Env.callless : Env where
  method := 0
  signature := ⟨"m", [], .void, false, false⟩
  table := ⟨[]⟩
  settings := some {}

/-- A frame whose only variable, at `[rbp - 8]`, has the given name and type. -/
def Lower.Frame.soleVariable (name : String) (ty : Ty) : Frame :=
  { position := 8, scope := [(name, ⟨8, 8, 1, ty⟩)] }

def Code.readsSlot (code : Code) (offset : Int64) : Bool :=
  decide (Line.binary .mov (.reg ⟨.rax, 8⟩) (.mem 8 (.frameSlot offset)) ∈ code)

def counterType : Ty := .struct "S" [("a", .prim .i64)]

/-- The literal with one more than the field of the variable `s`. -/
def counterAdvanced : Expr :=
  .struct {} counterType [("a", .binary {} .add (.member {} (.ident {} "s" counterType) "a")
    (.number {} 1 (.prim .i64)) (.prim .i64))]

def counterDeclared (name : String) : Stmt := .declaration {} name counterType (some counterAdvanced)

def copyDeclared (name : String) : Stmt :=
  .declaration {} name (.prim .i64) (some (.ident {} "x" (.prim .i64)))

theorem initializer_read_before_declaration_shadowing :
    (∃ code next after,
      Yields ((copyDeclared "x").lower false) .callless (.soleVariable "x" (.prim .i64)) code next ∧
      Yields ((copyDeclared "y").lower false) .callless (.soleVariable "x" (.prim .i64)) code after ∧
      code.readsSlot 8 = true) ∧
    ∃ code next after, Yields ((counterDeclared "s").lower false) .callless {} code next ∧
      Yields ((counterDeclared "s").lower false) .callless
        (Frame.declaring {} "s" ⟨24, 8, 1, counterType⟩) code after := by
  constructor
  · obtain ⟨code, next, lowered, reads⟩ := Yields.of_check ((copyDeclared "x").lower false) .callless
      (.soleVariable "x" (.prim .i64)) (fun code => code.readsSlot 8) (by decide)
    have agree := (initializer_read_before_declaration .callless (.soleVariable "x" (.prim .i64)) {} "x"
      (.prim .i64) (.ident {} "x" (.prim .i64)) false).1 "y" (.inl rfl) (by decide) (by rintro ⟨⟩)
    rw [show (Stmt.declaration {} "x" _ _).lower false .callless _ = _ from lowered] at agree
    obtain ⟨⟨_, after⟩, renamed, rfl, _⟩ := agree.exists_ok
    exact ⟨code, next, after, lowered, renamed, reads⟩
  · obtain ⟨code, next, lowered, _⟩ := Yields.of_check ((counterDeclared "s").lower false) .callless {}
      (fun _ => true) (by decide)
    have agree := (initializer_read_before_declaration .callless {} {} "s" counterType counterAdvanced
      false).2 _ _ _ rfl rfl ⟨24, 8, 1, counterType⟩
    rw [show (Stmt.declaration {} "s" _ _).lower false .callless {} = _ from lowered] at agree
    obtain ⟨⟨_, after⟩, shadowing, rfl⟩ := agree.exists_ok
    exact ⟨code, next, after, lowered, shadowing⟩

/-- A literal that advances the variable it shadows reads the new slot instead, and needs no variable
of that name to exist. -/
theorem literal_reads_declared_slot :
    (∃ code next,
      Yields ((counterDeclared "s").lower false) .callless (.soleVariable "s" counterType) code next ∧
      code.readsSlot 16 = true ∧ code.readsSlot 8 = false) ∧
    (∃ code next,
      Yields ((counterDeclared "t").lower false) .callless (.soleVariable "s" counterType) code next ∧
      code.readsSlot 16 = false ∧ code.readsSlot 8 = true) ∧
    (∃ code next, Yields ((counterDeclared "s").lower false) .callless {} code next) ∧
    (counterDeclared "t").lower false .callless {} =
      .error (.failure ⟨{}, .undefinedVariable "s"⟩) := by
  refine ⟨?_, ?_, ?_, ?_⟩
  · obtain ⟨code, next, lowered, reads⟩ := Yields.of_check ((counterDeclared "s").lower false)
      .callless (.soleVariable "s" counterType) (fun code => code.readsSlot 16 && !code.readsSlot 8)
      (by decide +kernel)
    simp only [Bool.and_eq_true, Bool.not_eq_true'] at reads
    exact ⟨code, next, lowered, reads⟩
  · obtain ⟨code, next, lowered, reads⟩ := Yields.of_check ((counterDeclared "t").lower false)
      .callless (.soleVariable "s" counterType) (fun code => !code.readsSlot 16 && code.readsSlot 8)
      (by decide +kernel)
    simp only [Bool.and_eq_true, Bool.not_eq_true'] at reads
    exact ⟨code, next, lowered, reads⟩
  · obtain ⟨code, next, lowered, _⟩ := Yields.of_check ((counterDeclared "s").lower false) .callless {}
      (fun _ => true) (by decide +kernel)
    exact ⟨code, next, lowered⟩
  · rfl

end Nasm64
