import Nasm64.Lower.Stmt
import Nasm64.Proofs.Layout.Type
import Nasm64.Proofs.Tree.Nodes

/-! What lowering does to the variables and slots of a frame. Which slots an expression or a simple
statement takes and which names it looks up is known beforehand. -/
namespace Nasm64

namespace Lower

/-- Environments that ask for the same instructions, with warnings and comments of their own. -/
structure Env.Agrees (env other : Env) : Prop where
  method : env.method = other.method
  signature : env.signature = other.signature
  table : env.table = other.table
  shadowSpace : env.shadowSpace = other.shadowSpace
  stackAlignment : env.stackAlignment = other.stackAlignment
  fastPath : env.hasFeature .fastPath = other.hasFeature .fastPath

theorem Env.Agrees.refl (env : Env) : env.Agrees env := ⟨rfl, rfl, rfl, rfl, rfl, rfl⟩

theorem Env.Agrees.resultLabel {env other : Env} (agrees : env.Agrees other) :
    env.resultLabel = other.resultLabel := by
  simp only [Env.resultLabel, agrees.method]

structure Margin where
  warnings : List Warning
  scope : List (String × Variable)

namespace Frame

def margin (frame : Frame) : Margin := ⟨frame.warnings, frame.scope⟩

def withMargin (frame : Frame) (margin : Margin) : Frame :=
  { frame with warnings := margin.warnings, scope := margin.scope }

theorem touch_withMargin (frame : Frame) (margin : Margin) (fam : Family) :
    (frame.withMargin margin).touch fam = (frame.touch fam).withMargin margin := by
  unfold Frame.touch withMargin
  split <;> rfl

/-- The slots of a frame, by their offsets. -/
structure Sketch where
  position : Int64
  scope : List (String × Int64)
  locals : List Local
  referenced : List Int64

def sketch (frame : Frame) : Sketch where
  position := frame.position
  scope := frame.scope.map fun entry => (entry.1, entry.2.offset)
  locals := frame.locals
  referenced := frame.referenced

theorem touch_margin (frame : Frame) (fam : Family) : (frame.touch fam).margin = frame.margin := by
  unfold Frame.touch
  split <;> rfl

theorem touch_sketch (frame : Frame) (fam : Family) : (frame.touch fam).sketch = frame.sketch := by
  unfold Frame.touch
  split <;> rfl

end Frame

/-- What a step does to the variables and slots of a frame. -/
inductive Effect where
  | reserved (need : Need)
  | found (name : String)
  | declared (name : String) (ty : Ty)
deriving Repr

namespace Effect

def need? : Effect → Option Need
  | reserved need => some need
  | found _ => none
  | declared _ ty => some (.ofType ty)

def needs (effects : List Effect) : List Need := effects.filterMap need?

theorem needs_append (effects more : List Effect) : needs (effects ++ more) = needs effects ++ needs more :=
  List.filterMap_append

/-- The effects declare nothing. They find these names, in order, and take slots aligned as values are. -/
inductive Reads : List Effect → List String → Prop
  | nil : Reads [] []
  | reserved {need : Need} {effects : List Effect} {names : List String}
    (aligned : Ty.Alignment need.align) (rest : Reads effects names) : Reads (reserved need :: effects) names
  | found {name : String} {effects : List Effect} {names : List String} (rest : Reads effects names) :
    Reads (found name :: effects) (name :: names)

theorem Reads.append (first : Reads effects names) (second : Reads more others) :
    Reads (effects ++ more) (names ++ others) := by
  induction first with
  | nil => exact second
  | reserved aligned _ ih => exact .reserved aligned ih
  | found _ ih => exact .found ih

theorem Reads.mem_names (reads : Reads effects names) (mem : Effect.found name ∈ effects) : name ∈ names := by
  induction reads with
  | nil => cases mem
  | reserved _ _ ih => exact ih (by simpa using mem)
  | found _ ih =>
    rcases List.mem_cons.mp mem with same | later
    · cases same
      exact List.mem_cons_self
    · exact List.mem_cons_of_mem _ (ih later)

theorem Reads.not_declared (reads : Reads effects names) : Effect.declared name ty ∉ effects := by
  induction reads <;> simp_all

theorem Reads.map_found : (names : List String) → Reads (names.map Effect.found) names
  | [] => .nil
  | _ :: rest => .found (map_found rest)

end Effect

end Lower

open Lower

namespace Expr

mutual

/-- What an expression needs of the frame, in order of evaluation. -/
def needs : Expr → List Need
  | number .. | float .. | bool .. | string .. | ident .. | struct .. => []
  | binary _ _ left right _ => left.needs ++ right.needs
  | unary _ _ operand | deref _ operand | cast _ operand _ | member _ operand _ => operand.needs
  | addressOf _ operand =>
    if operand.isPlace then operand.needs
    else ⟨Int64.ofInt operand.type.registerSize, operand.type.align⟩ :: operand.needs
  | call _ _ arguments _ => allNeeds arguments
  | index _ base subscript => base.needs ++ subscript.needs
termination_by structural expr => expr

def allNeeds : List Expr → List Need
  | [] => []
  | expr :: rest => expr.needs ++ allNeeds rest
termination_by structural exprs => exprs

end

mutual

/-- What evaluating an expression does to the frame, in order. A literal of a struct type has no value
of its own. -/
def effects : Expr → List Effect
  | number .. | float .. | bool .. | string .. => []
  | ident _ name _ => [.found name]
  | binary _ _ left right _ => left.effects ++ right.effects
  | unary _ _ operand | deref _ operand | cast _ operand _ | member _ operand _ => operand.effects
  | addressOf _ operand =>
    if operand.isPlace then operand.effects
    else .reserved ⟨Int64.ofInt operand.type.registerSize, operand.type.align⟩ :: operand.effects
  | call _ _ arguments _ => allEffects arguments
  | index _ base subscript => base.effects ++ subscript.effects
  | struct _ _ fields => (fieldMentions fields).map .found
termination_by structural expr => expr

def allEffects : List Expr → List Effect
  | [] => []
  | expr :: rest => expr.effects ++ allEffects rest
termination_by structural exprs => exprs

end

mutual

theorem needs_effects : (expr : Expr) → Effect.needs expr.effects = expr.needs
  | number .. | float .. | bool .. | string .. | ident .. => rfl
  | struct _ _ fields => by simp [effects, Effect.needs, Effect.need?, needs]
  | binary _ _ left right _ | index _ left right => by
    simp only [effects, needs, Effect.needs_append, needs_effects left, needs_effects right]
  | unary _ _ opnd | deref _ opnd | cast _ opnd _ | member _ opnd _ => needs_effects opnd
  | addressOf _ opnd => by
    simp only [effects, needs]
    split
    · exact needs_effects opnd
    · exact congrArg _ (needs_effects opnd)
  | call _ _ args _ => needs_allEffects args

theorem needs_allEffects : (exprs : List Expr) → Effect.needs (allEffects exprs) = allNeeds exprs
  | [] => rfl
  | expr :: rest => by
    simp only [allEffects, allNeeds, Effect.needs_append, needs_effects expr, needs_allEffects rest]

end

theorem allEffects_eq (exprs : List Expr) : allEffects exprs = (exprs.map effects).flatten := by
  induction exprs with
  | nil => rfl
  | cons expr rest ih => rw [allEffects, ih, List.map_cons, List.flatten_cons]

mutual

/-- The variables that an expression mentions are looked up one after the other. -/
theorem reads : (expr : Expr) → Effect.Reads expr.effects expr.mentions
  | number .. | float .. | bool .. | string .. => .nil
  | ident .. => .found .nil
  | binary _ _ left right _ => by
    rw [mentions_binary]
    exact left.reads.append right.reads
  | index _ left right => by
    rw [mentions_index]
    exact left.reads.append right.reads
  | unary _ _ opnd | deref _ opnd | cast _ opnd _ | member _ opnd _ => opnd.reads
  | addressOf _ opnd => by
    rw [effects]
    split
    · exact opnd.reads
    · exact .reserved opnd.type.align_alignment opnd.reads
  | call _ _ args _ => by
    rw [mentions_call]
    exact reads_all args
  | struct _ _ fields => .map_found _

theorem reads_all : (exprs : List Expr) → Effect.Reads (allEffects exprs) (exprs.flatMap mentions)
  | [] => .nil
  | expr :: rest => by
    rw [List.flatMap_cons]
    exact expr.reads.append (reads_all rest)

end

theorem reads_fields (fields : List (String × Expr)) :
    Effect.Reads (fields.flatMap fun field => field.2.effects) (fieldMentions fields) := by
  rw [fieldMentions_eq]
  induction fields with
  | nil => exact .nil
  | cons field rest ih => exact field.2.reads.append ih

variable {expr : Expr}

theorem effects_of_integerLiteral? (lit : expr.integerLiteral?.isSome = true) : expr.effects = [] := by
  cases expr <;> first | rfl | cases lit

theorem effects_of_boolLiteral? (lit : expr.boolLiteral?.isSome = true) : expr.effects = [] := by
  cases expr <;> first | rfl | cases lit

/-- What is folded away has no parts that need anything. -/
theorem effects_of_constant? (const : expr.constant?.isSome = true) : expr.effects = [] := by
  induction expr using constant?.induct with
  | case4 pos opnd ih =>
    simp only [constant?, Option.isSome_map] at const
    simpa only [effects] using ih const
  | _ => first | rfl | simp_all [constant?]

end Expr

namespace Lower

/-- What a struct and its first value need. A literal is stored field by field unless all of it is in
the data section. -/
def structNeeds (ty : Ty) : Expr → List Need
  | .struct _ _ fields => .ofType ty ::
    if (DataSection.constantFields? ty.fields fields).isSome then []
    else fields.flatMap fun field => field.2.needs
  | init => init.needs ++ [.ofType ty]

def declarationNeeds (ty : Ty) : Option Expr → List Need
  | none => [.ofType ty]
  | some init => if ty.isStruct then structNeeds ty init else init.needs ++ [.ofType ty]

/-- What declaring a struct does to the frame. The values of a literal are read afterwards. -/
def structEffects (name : String) (ty : Ty) : Expr → List Effect
  | .struct _ _ fields => .declared name ty ::
    if (DataSection.constantFields? ty.fields fields).isSome then []
    else fields.flatMap fun field => field.2.effects
  | init => init.effects ++ [.declared name ty]

def declarationEffects (name : String) (ty : Ty) : Option Expr → List Effect
  | none => [.declared name ty]
  | some init => if ty.isStruct then structEffects name ty init else init.effects ++ [.declared name ty]

/-- What the source of a copy does to the frame. A literal is copied when it is constant. -/
def sourceEffects : Expr → List Effect
  | .struct .. => []
  | value => value.effects

/-- What the assignment of a scalar does to the frame. A constant is stored in a variable straight away. -/
def scalarEffects (value : Expr) : Expr → List Effect
  | .ident _ name ty => .found name ::
    if (storeConstant? value ty (.frameSlot 0)).isSome then [] else value.effects ++ [.found name]
  | target => value.effects ++ target.effects

def assignmentEffects (target value : Expr) : List Effect :=
  if target.type.isStruct then sourceEffects value ++ target.effects else scalarEffects value target

theorem isSome_storeConstant? (v : Expr) (ty : Ty) (addr other : Address) :
    (storeConstant? v ty addr).isSome = (storeConstant? v ty other).isSome := by
  unfold storeConstant?
  split
  · rfl
  · split
    · dsimp only
      split <;> rfl
    · rfl

theorem constant_of_storeConstant? (stored : (storeConstant? v ty addr).isSome = true) :
    v.constant?.isSome = true := by
  unfold storeConstant? at stored
  split at stored
  · cases stored
  · split at stored
    · simp_all
    · cases stored

def parameterNeeds (parameters : List Parameter) : List Need :=
  parameters.map fun parameter => .ofType parameter.type.decay

def parameterEffects (parameters : List Parameter) : List Effect :=
  parameters.map fun parameter => .declared parameter.name parameter.type.decay

theorem needs_structEffects (name : String) (ty : Ty) (init : Expr) :
    Effect.needs (structEffects name ty init) = structNeeds ty init := by
  cases init with
  | struct pos own fields =>
    have values : Effect.needs (fields.flatMap fun field => field.2.effects) =
        fields.flatMap fun field => field.2.needs := by
      induction fields with
      | nil => rfl
      | cons field rest ih =>
        rw [List.flatMap_cons, Effect.needs_append, field.2.needs_effects, ih, List.flatMap_cons]
    unfold structEffects structNeeds
    refine congrArg (Need.ofType ty :: ·) ?_
    split
    · rfl
    · exact values
  | _ =>
    rw [structEffects, structNeeds, Effect.needs_append, Expr.needs_effects]
    · rfl
    all_goals nofun

theorem needs_declarationEffects (name : String) (ty : Ty) (init : Option Expr) :
    Effect.needs (declarationEffects name ty init) = declarationNeeds ty init := by
  cases init with
  | none => rfl
  | some init =>
    rw [declarationEffects, declarationNeeds]
    split
    · exact needs_structEffects name ty init
    · rw [Effect.needs_append, init.needs_effects]
      rfl

theorem needs_assignmentEffects (dst v : Expr) :
    Effect.needs (assignmentEffects dst v) = v.needs ++ dst.needs := by
  have source : Effect.needs (sourceEffects v) = v.needs := by
    cases v <;> first | rfl | exact Expr.needs_effects _
  have both : Effect.needs (v.effects ++ dst.effects) = v.needs ++ dst.needs := by
    rw [Effect.needs_append, v.needs_effects, dst.needs_effects]
  unfold assignmentEffects
  split
  · rw [Effect.needs_append, source, dst.needs_effects]
  · cases dst with
    | ident pos name ty =>
      rw [scalarEffects]
      by_cases stored : (storeConstant? v ty (.frameSlot 0)).isSome = true
      · rw [if_pos stored, ← v.needs_effects, v.effects_of_constant? (constant_of_storeConstant? stored)]
        rfl
      · rw [if_neg stored]
        exact both
    | _ => exact both

theorem needs_parameterEffects (params : List Parameter) :
    Effect.needs (parameterEffects params) = parameterNeeds params := by
  induction params with
  | nil => rfl
  | cons param rest ih => exact congrArg (Need.ofType param.type.decay :: ·) ih

end Lower

end Nasm64
