import Nasm64.Proofs.Lower.Attempt
import Nasm64.Proofs.Lower.Yields
import Nasm64.Lower.Stmt

/-! Struct literals that name something that is no field. Main statement: such a literal is refused
unless its other values are constants, and then what is no field is left out. -/
namespace Nasm64

open Lower DataSection

/-- The values of a literal that are for a field. -/
def Ty.known (ty : Ty) (values : List (String × Expr)) : List (String × Expr) :=
  values.filter fun entry => (ty.field? entry.1).isSome

variable {ty : Ty} {values : List (String × Expr)} {env : Env} {frame : Frame}

theorem lookup_filter {α : Type} {entries : List (String × α)} (test : String → Bool)
    (passes : test name = true) :
    (entries.filter fun entry => test entry.1).lookup name = entries.lookup name :=
    by
  induction entries with
  | nil => rfl
  | cons entry rest ih =>
    obtain ⟨key, v⟩ := entry
    by_cases same : name = key
    · subst same
      simp [passes]
    · have apart : (name == key) = false := beq_eq_false_iff_ne.mpr same
      rw [List.lookup_cons, apart, ← ih, List.filter_cons]
      split
      · rw [List.lookup_cons, apart]
      · rfl

/-- Whether a literal is constant, and what it then holds, does not depend on the rest. -/
theorem constantFields?_known :
    constantFields? ty.fields (ty.known values) = constantFields? ty.fields values := by
  have given : ty.fields.filterMap (fun field =>
        ((ty.known values).reverse.lookup field.name).map fun v => (field, v)) =
      ty.fields.filterMap fun field =>
        (values.reverse.lookup field.name).map fun v => (field, v) := by
    refine List.filterMap_congr fun field mem => ?_
    have found : (ty.field? field.name).isSome = true :=
      List.find?_isSome.mpr ⟨field, mem, beq_self_eq_true _⟩
    rw [Ty.known, ← List.filter_reverse, lookup_filter (fun name => (ty.field? name).isSome) found]
  simp only [constantFields?, given]

theorem DataSection.addStruct?_known (data : DataSection) :
    data.addStruct? ty (ty.known values) = data.addStruct? ty values := by
  simp only [addStruct?, constantFields?_known]

namespace Lower

variable {pos lit : Position} {own : Ty} {field name : String} {v : Expr}
  {before after : List (String × Expr)}

/-- Where a variable that is declared now will be. -/
def Frame.slotFor (frame : Frame) (name : String) (ty : Ty) : Address :=
  .frameSlot (frame.allocate name ty).1.offset

/-- A constant literal is copied from the data section. Any other is stored value by value. -/
theorem declareStruct_literal (pos lit : Position) (own : Ty) (values : List (String × Expr)) :
    declareStruct pos name ty (.struct lit own values) env frame =
      match frame.data.addStruct? ty values with
      | some (label, data) => .ok (copyBytes (frame.slotFor name ty) (.atLabel label) ty.size,
        { (frame.allocate name ty).2 with data })
      | none =>
        (values.mapM fun (field, v) => storeField ty (frame.slotFor name ty) field v) env
          (frame.allocate name ty).2 >>= fun stored =>
            .ok (zeroBytes (frame.slotFor name ty) ty.size ++ stored.1.flatten, stored.2) := by
  simp only [declareStruct, bind, ReaderT.bind, StateT.bind, Except.bind, addStruct?_runs]
  cases frame.data.addStruct? ty values with
  | none => rfl
  | some added => rfl

theorem lower_declaration (record : ty.isStruct = true) (init : Expr) (last : Bool) :
    (Stmt.declaration pos name ty (some init)).lower last env frame =
      declareStruct pos name ty init env frame >>= fun declared =>
      .ok (declared.1, { declared.2 with locals := declared.2.locals ++
      [⟨name, ((declared.2.find? name).map Variable.offset).getD 0, pos⟩] }) := by
  cases ty with
  | struct => rfl
  | _ => cases record

end Lower

/-- A literal with a value for something that is no field. When the values for fields are constants,
it stands for the literal without the others. When they are not, it is refused, in a declaration
as soon as the values before that one are stored. -/
theorem unknown_field_dropped_or_refused {ty : Ty} (record : ty.isStruct = true) {field : String}
    (unknown : ty.field? field = none) (before after : List (String × Expr)) (value : Expr) (env : Env)
    (frame : Frame) (position literal : Position) (name : String) (own : Ty) (last : Bool)
    {target : Expr} (place : target.isPlace = true) (typed : target.type = ty) :
    let values := before ++ (field, value) :: after
    let declared (values : List (String × Expr)) :=
      (Stmt.declaration position name ty (some (.struct literal own values))).lower last env frame
    let assigned (values : List (String × Expr)) :=
      (Stmt.assignment position target (.struct literal own values)).lower last env frame
    match DataSection.constantFields? ty.fields values with
    | some _ => (∃ result, declared values = .ok result) ∧ declared values = declared (ty.known values) ∧
      assigned values = assigned (ty.known values)
    | none =>
      declared values = ((before.mapM fun (field, value) =>
          storeField ty (frame.slotFor name ty) field value) env (frame.allocate name ty).2 >>= fun _ =>
        .error (.failure ⟨value.position, .noField ty.text field⟩)) ∧
      assigned values = .error (.failure ⟨literal, .assignedLiteral⟩) ∧
      (Problem.noField ty.text field).kind = .type ∧ Problem.assignedLiteral.kind = .type := by
  subst typed
  have assigns (init : Expr) : (Stmt.assignment position target init).lower last =
      assignStruct position target init := by
    simp [Stmt.lower, lowerAssignment, place, record]
  simp only [lower_declaration record, assigns, declareStruct_literal, DataSection.addStruct?_known]
  split
  · next fields constant =>
    have added : ∃ added, frame.data.addStruct? target.type (before ++ (field, value) :: after) =
        some added := by
      simp [DataSection.addStruct?, constant]
    obtain ⟨⟨label, data⟩, added⟩ := added
    rw [added]
    refine ⟨⟨_, rfl⟩, rfl, ?_⟩
    simp only [assignStruct, structSource, bind, ReaderT.bind, StateT.bind, Except.bind, addStruct?_runs,
      DataSection.addStruct?_known]
  · next computed =>
    have missing : frame.data.addStruct? target.type (before ++ (field, value) :: after) = none := by
      simp only [DataSection.addStruct?, computed, Option.map_none]
    have refused (base : Address) (start : Frame) : storeField target.type base field value env start =
        .error (.failure ⟨value.position, .noField target.type.text field⟩) := by
      simp only [storeField, unknown]
      rfl
    refine ⟨?_, ?_, rfl, rfl⟩
    · rw [missing, List.mapM_append, List.mapM_cons]
      simp only [bind, ReaderT.bind, StateT.bind, Except.bind, refused]
      cases (before.mapM fun (field, value) => storeField target.type (frame.slotFor name target.type)
        field value) env (frame.allocate name target.type).2 <;> rfl
    · simp only [assignStruct, structSource, bind, ReaderT.bind, StateT.bind, Except.bind, addStruct?_runs,
        missing]
      rfl

def cell : Ty := .struct "S" [("a", .prim .i64)]

/-- A literal of it with one more value, which is a variable. -/
def cellLiteral (content : Expr) : Expr :=
  .struct {} cell [("a", content), ("b", .ident {} "y" (.prim .i64))]

def Lower.Env.bare : Env := ⟨0, ⟨"m", [], .void, false, false⟩, ⟨[]⟩, none⟩

theorem constantFields?_cell :
    constantFields? cell.fields
      [("a", .number {} 1 (.prim .i64)), ("b", .ident {} "y" (.prim .i64))] = some [("a", .quad 1)] ∧
    constantFields? cell.fields
      [("a", .ident {} "y" (.prim .i64)), ("b", .ident {} "y" (.prim .i64))] = none := ⟨rfl, rfl⟩

theorem unknown_field_dropped_or_refused_cell :
    (∃ result, (Stmt.declaration {} "s" cell (some (cellLiteral (.number {} 1 (.prim .i64))))).lower false
      .bare {} = .ok result) ∧
    (Stmt.assignment {} (.ident {} "s" cell) (cellLiteral (.ident {} "y" (.prim .i64)))).lower false
      .bare {} = .error (.failure ⟨{}, .assignedLiteral⟩) := by
  have outcome (content : Expr) := unknown_field_dropped_or_refused (rfl : cell.isStruct = true)
    (rfl : cell.field? "b" = none) [("a", content)] [] (.ident {} "y" (.prim .i64)) .bare {} {} {} "s" cell
    false (rfl : (Expr.ident {} "s" cell).isPlace = true) rfl
  have constant := outcome (.number {} 1 (.prim .i64))
  have computed := outcome (.ident {} "y" (.prim .i64))
  simp only [List.cons_append, List.nil_append, constantFields?_cell.1] at constant
  simp only [List.cons_append, List.nil_append, constantFields?_cell.2] at computed
  exact ⟨constant.1, computed.2.1⟩

/-- A literal with a constant for its field and a variable for something else, where neither the
variable nor such a field exists, is declared like the lit without it. -/
theorem unknown_field_accepted :
    cell.field? "b" = none ∧ ∃ code next,
      Yields ((Stmt.declaration {} "s" cell (some (cellLiteral (.number {} 1 (.prim .i64))))).lower false)
        .bare {} code next ∧
      Yields ((Stmt.declaration {} "s" cell (some (.struct {} cell
        [("a", .number {} 1 (.prim .i64))]))).lower false) .bare {} code next := by
  refine ⟨rfl, ?_⟩
  simp only [Yields, cellLiteral, lower_declaration (rfl : cell.isStruct = true), declareStruct_literal,
    DataSection.addStruct?, constantFields?_cell.1]
  exact ⟨_, _, rfl, rfl⟩

end Nasm64
