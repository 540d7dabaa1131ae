import Nasm64.Proofs.Document.Declared
import Nasm64.Proofs.Tree.Nodes

/-! The trees of a document: every node in them has a type, which the nodes below it determine. -/
namespace Nasm64

open Attempt

namespace Expr

/-- The type of an expression, as far as those of its operands allow for one. -/
def type? : Expr → Option Ty
  | number _ _ ty | float _ _ ty | ident _ _ ty | binary _ _ _ _ ty | cast _ _ ty | call _ _ _ ty
  | struct _ ty _ => some ty
  | bool .. | unary _ .not _ => some (.prim .bool)
  | string .. => some (.pointer (.prim .u8))
  | unary _ _ operand => operand.type?
  | addressOf _ place => place.type?.map .pointer
  | deref _ pointer =>
    match pointer.type? with
    | some (.pointer target) => some target
    | _ => none
  | index _ base _ =>
    match base.type? with
    | some (.pointer element) | some (.array _ element) => some element
    | _ => none
  | member _ base field =>
    match base.type? with
    | some (.struct _ fields) | some (.pointer (.struct _ fields)) => fields.lookup field
    | _ => none

/-- What a node asks of the types of its operands. -/
def Formed (structs : List Ty) : Expr → Prop
  | deref _ pointer => ∃ target, pointer.type = .pointer target
  | index _ base _ => ∃ element, base.type = .pointer element ∨ ∃ length, base.type = .array length element
  | member position base field => ∃ name fields, Ty.struct name fields ∈ structs ∧
    (base.type = .struct name fields ∨ base.type = .pointer (.struct name fields)) ∧
    fields.lookup field = some (member position base field).type
  | _ => True

/-- A node that has a type, of declared structs, and fits those of its operands. -/
structure Valid (structs : List Ty) (expr : Expr) : Prop where
  typed : expr.type? = some expr.type
  formed : expr.Formed structs
  declared : expr.type.Declared structs

def Sound (structs : List Ty) (expr : Expr) : Prop := ∀ node ∈ expr.nodes, node.Valid structs

variable {structs : List Ty} {expr left right : Expr}

theorem Sound.valid (sound : expr.Sound structs) : expr.Valid structs := sound expr List.mem_cons_self

theorem sound_of_inner (valid : expr.Valid structs) (inner : ∀ node ∈ expr.innerNodes, node.Valid structs) :
    expr.Sound structs := List.forall_mem_cons.mpr ⟨valid, inner⟩

theorem Sound.beside (first : left.Sound structs) (second : right.Sound structs) :
    ∀ node ∈ left :: left.innerNodes ++ right :: right.innerNodes, node.Valid structs :=
  List.forall_mem_append.mpr ⟨first, second⟩

theorem nodesOf_valid (each : ∀ expr ∈ exprs, expr.Sound structs) : ∀ node ∈ nodesOf exprs,
    node.Valid structs := by
  induction exprs with
  | nil => simp [nodesOf]
  | cons expr rest ih =>
    have others := ih fun other mem => each other (List.mem_cons_of_mem _ mem)
    exact List.forall_mem_append.mpr ⟨each expr List.mem_cons_self, others⟩

theorem fieldNodes_valid (each : ∀ field ∈ fields, field.2.Sound structs) :
    ∀ node ∈ fieldNodes fields, node.Valid structs := by
  induction fields with
  | nil => simp [fieldNodes]
  | cons field rest ih =>
    have others := ih fun other mem => each other (List.mem_cons_of_mem _ mem)
    exact List.forall_mem_append.mpr ⟨each field List.mem_cons_self, others⟩

end Expr

namespace Document

variable {structs : List Ty} {known : Ty.Structs} {pos : Position} {expr opnd base idx : Expr}
  {field : String}

theorem makeDeref_sound (read : makeDeref pos opnd = .ok expr) (sound : opnd.Sound structs) :
    expr.Sound structs := by
  unfold makeDeref at read
  split at read
  · next ptr =>
    cases read
    obtain ⟨target, same⟩ : ∃ target, opnd.type = .pointer target := by
      cases ty : opnd.type with
      | pointer target => exact ⟨target, rfl⟩
      | _ => simp [ty, Ty.isPointer] at ptr
    have typed := sound.valid.typed
    refine Expr.sound_of_inner ⟨?_, ⟨target, same⟩, sound.valid.declared.target⟩ sound
    rw [same] at typed
    simp [Expr.type?, Expr.type, typed, same, Ty.target]
  · cases read

theorem makeIndex_sound (read : makeIndex pos base idx = .ok expr)
    (sound : base.Sound structs) (inner : idx.Sound structs) : expr.Sound structs := by
  unfold makeIndex at read
  split at read
  · next indexable =>
    cases read
    have typed := sound.valid.typed
    obtain ⟨element, either⟩ :
        ∃ element, base.type = .pointer element ∨ ∃ length, base.type = .array length element := by
      cases ty : base.type with
      | pointer element => exact ⟨element, .inl rfl⟩
      | array length element => exact ⟨element, .inr ⟨length, rfl⟩⟩
      | _ => simp [ty, Ty.isArray, Ty.isPointer] at indexable
    refine Expr.sound_of_inner ⟨?_, ⟨element, either⟩, sound.valid.declared.target⟩ (sound.beside inner)
    rcases either with same | ⟨length, same⟩ <;> rw [same] at typed <;>
      simp [Expr.type?, Expr.type, typed, same, Ty.target]
  · cases read

theorem record_eq_struct (same : Expr.record ty = .struct name fields) : ty = .struct name fields ∨
    ty = .pointer (.struct name fields) := by
  cases ty with
  | pointer dst => exact .inr (congrArg Ty.pointer same)
  | _ => exact .inl same

theorem makeMember_sound (read : makeMember pos base field = .ok expr)
    (closed : Ty.Closed structs) (sound : base.Sound structs) : expr.Sound structs := by
  unfold makeMember at read
  dsimp only at read
  split at read
  · cases read
  · split at read
    · cases read
    · next present =>
      cases read
      obtain ⟨found, listed⟩ : ∃ found, (Expr.record base.type).field? field = some found :=
        Option.ne_none_iff_exists'.mp (by simpa using present)
      have typed := sound.valid.typed
      have declared := sound.valid.declared.record
      have type : (Expr.member pos base field).type = found.type := by simp [Expr.type, listed]
      obtain ⟨name, fields, same, looked⟩ := Ty.field?_eq_some listed
      refine Expr.sound_of_inner ⟨?_, ?_, ?_⟩ sound
      · rw [type]
        rcases record_eq_struct same with through | through <;> rw [through] at typed <;>
          simpa [Expr.type?, typed] using looked
      · rw [same] at declared
        exact ⟨name, fields, declared, record_eq_struct same, type ▸ looked⟩
      · exact type ▸ closed.field? declared listed

theorem needType_declared (declared : ∀ ty ∈ ty?, ty.Declared structs)
    (read : needType pos kind ty? = .ok ty) : ty.Declared structs := by
  cases ty? with
  | none => cases read
  | some other =>
    cases read
    exact declared ty rfl

theorem unary_sound (sound : opnd.Sound structs) : (Expr.unary pos op opnd).Sound structs := by
  refine Expr.sound_of_inner ⟨?_, trivial, ?_⟩ sound
  · cases op with
    | not => rfl
    | negate | complement => exact sound.valid.typed
  · cases op with
    | not => trivial
    | negate | complement => exact sound.valid.declared

theorem addressOf_sound (sound : opnd.Sound structs) : (Expr.addressOf pos opnd).Sound structs :=
  Expr.sound_of_inner ⟨by simp [Expr.type?, Expr.type, sound.valid.typed], trivial, sound.valid.declared⟩
    sound

mutual

theorem readExpr_sound (closed : Ty.Closed structs) (given : ∀ entry ∈ known, entry.2.Declared structs) :
    (node : RawNode) → {expr : Expr} → readExpr known node = .ok expr → expr.Sound structs
  | ⟨kind, type, pos, op, v, text, name, field, child, lhs, rhs, i, _, _, ⟨args, _⟩, _, _, _,
      ⟨fields, _⟩⟩, expr, read => by
    rw [readExpr] at read
    obtain ⟨ty?, named, read⟩ := bind_eq_ok.mp read
    have declared := optionalType_declared given named
    have leaf {node : Expr} (typed : node.type? = some node.type) (formed : node.Formed structs)
        (own : node.type.Declared structs) (none : node.innerNodes = []) : node.Sound structs :=
      Expr.sound_of_inner ⟨typed, formed, own⟩ (by simp [none])
    dsimp only at read
    split at read
    · obtain ⟨ty, needed, read⟩ := bind_eq_ok.mp read
      obtain ⟨_, _, ⟨⟩⟩ := bind_eq_ok.mp read
      exact leaf rfl trivial (needType_declared declared needed) rfl
    · obtain ⟨ty, needed, read⟩ := bind_eq_ok.mp read
      obtain ⟨_, _, ⟨⟩⟩ := bind_eq_ok.mp read
      exact leaf rfl trivial (needType_declared declared needed) rfl
    · cases read
      exact leaf rfl trivial trivial rfl
    · cases read
      exact leaf rfl trivial trivial rfl
    · obtain ⟨ty, needed, ⟨⟩⟩ := bind_eq_ok.mp read
      exact leaf rfl trivial (needType_declared declared needed) rfl
    · obtain ⟨ty, needed, read⟩ := bind_eq_ok.mp read
      obtain ⟨_, _, read⟩ := bind_eq_ok.mp read
      obtain ⟨left, first, read⟩ := bind_eq_ok.mp read
      obtain ⟨right, second, ⟨⟩⟩ := bind_eq_ok.mp read
      exact Expr.sound_of_inner ⟨rfl, trivial, needType_declared declared needed⟩
        ((needExpr_sound closed given lhs first).beside (needExpr_sound closed given rhs second))
    · obtain ⟨_, _, read⟩ := bind_eq_ok.mp read
      obtain ⟨opnd, inner, ⟨⟩⟩ := bind_eq_ok.mp read
      exact unary_sound (needExpr_sound closed given child inner)
    · obtain ⟨opnd, inner, read⟩ := bind_eq_ok.mp read
      exact makeDeref_sound read (needExpr_sound closed given child inner)
    · obtain ⟨opnd, inner, ⟨⟩⟩ := bind_eq_ok.mp read
      exact addressOf_sound (needExpr_sound closed given child inner)
    · obtain ⟨ty, needed, read⟩ := bind_eq_ok.mp read
      obtain ⟨opnd, inner, ⟨⟩⟩ := bind_eq_ok.mp read
      exact Expr.sound_of_inner ⟨rfl, trivial, needType_declared declared needed⟩
        (needExpr_sound closed given child inner)
    · obtain ⟨arguments, inner, ⟨⟩⟩ := bind_eq_ok.mp read
      refine Expr.sound_of_inner ⟨rfl, trivial, ?_⟩
        (Expr.nodesOf_valid (readExprs_sound closed given args inner))
      cases ty? with
      | none => trivial
      | some ty => exact declared ty rfl
    · obtain ⟨base, first, read⟩ := bind_eq_ok.mp read
      obtain ⟨idx, second, read⟩ := bind_eq_ok.mp read
      exact makeIndex_sound read (needExpr_sound closed given child first)
        (needExpr_sound closed given i second)
    · obtain ⟨base, inner, read⟩ := bind_eq_ok.mp read
      exact makeMember_sound read closed (needExpr_sound closed given child inner)
    · obtain ⟨ty, needed, read⟩ := bind_eq_ok.mp read
      obtain ⟨values, inner, ⟨⟩⟩ := bind_eq_ok.mp read
      exact Expr.sound_of_inner ⟨rfl, trivial, needType_declared declared needed⟩
        (Expr.fieldNodes_valid (readValues_sound closed given fields inner))
    · cases read
termination_by structural node => node

theorem needExpr_sound (closed : Ty.Closed structs) (given : ∀ entry ∈ known, entry.2.Declared structs) :
    (node : Option RawNode) → {expr : Expr} → needExpr known node = .ok expr → expr.Sound structs
  | none, _, read => nomatch read
  | some node, _, read => readExpr_sound closed given node read
termination_by structural node => node

theorem readExprs_sound (closed : Ty.Closed structs)
    (given : ∀ entry ∈ known, entry.2.Declared structs) :
    (nodes : List (Option RawNode)) → {exprs : List Expr} → readExprs known nodes = .ok exprs →
      ∀ expr ∈ exprs, expr.Sound structs
  | [], _, read => by
    cases read
    simp
  | node :: rest, _, read => by
    rw [readExprs] at read
    obtain ⟨expr, first, read⟩ := bind_eq_ok.mp read
    obtain ⟨others, following, ⟨⟩⟩ := bind_eq_ok.mp read
    exact List.forall_mem_cons.mpr ⟨needExpr_sound closed given node first,
      readExprs_sound closed given rest following⟩
termination_by structural nodes => nodes

theorem readValues_sound (closed : Ty.Closed structs)
    (given : ∀ entry ∈ known, entry.2.Declared structs) :
    (fields : List (String × Option RawNode)) → {values : List (String × Expr)} →
      readValues known fields = .ok values → ∀ v ∈ values, v.2.Sound structs
  | [], _, read => by
    cases read
    simp
  | (name, v) :: rest, _, read => by
    rw [readValues] at read
    obtain ⟨expr, first, read⟩ := bind_eq_ok.mp read
    obtain ⟨others, following, ⟨⟩⟩ := bind_eq_ok.mp read
    exact List.forall_mem_cons.mpr ⟨needExpr_sound closed given v first,
      readValues_sound closed given rest following⟩
termination_by structural fields => fields

end

theorem optionalExpr_sound (closed : Ty.Closed structs)
    (given : ∀ entry ∈ known, entry.2.Declared structs) (read : optionalExpr known node = .ok v) :
    ∀ expr ∈ v, expr.Sound structs := by
  cases node with
  | none =>
    cases read
    exact fun _ absent => nomatch absent
  | some node =>
    obtain ⟨expr, inner, rfl⟩ := map_eq_ok.mp read
    rintro _ ⟨⟩
    exact readExpr_sound closed given node inner

end Document

namespace Document

variable {structs : List Ty} {known : Ty.Structs}

theorem optional_valid {v : Option Expr} (sound : ∀ expr ∈ v, expr.Sound structs) :
    ∀ node ∈ v.elim [] Expr.nodes, node.Valid structs := by
  cases v with
  | none => simp
  | some expr => exact sound expr rfl

mutual

theorem readStmt_valid (closed : Ty.Closed structs)
    (given : ∀ entry ∈ known, entry.2.Declared structs) :
    (node : RawNode) → {stmt : Stmt} → readStmt known node = .ok stmt →
      ∀ node ∈ stmt.nodes, node.Valid structs
  | ⟨kind, type, pos, _, _, _, name, _, expr, lhs, rhs, _, init, cond, _, ⟨whenTrue, _⟩, otherwise,
      ⟨body, _⟩, _⟩, stmt, read => by
    unfold readStmt at read
    split at read
    · obtain ⟨_, _, read⟩ := bind_eq_ok.mp read
      obtain ⟨_, inner, ⟨⟩⟩ := bind_eq_ok.mp read
      exact optional_valid (optionalExpr_sound closed given inner)
    · obtain ⟨_, first, read⟩ := bind_eq_ok.mp read
      obtain ⟨_, second, ⟨⟩⟩ := bind_eq_ok.mp read
      exact List.forall_mem_append.mpr
        ⟨needExpr_sound closed given lhs first, needExpr_sound closed given rhs second⟩
    · obtain ⟨_, inner, ⟨⟩⟩ := bind_eq_ok.mp read
      exact optional_valid (optionalExpr_sound closed given inner)
    · obtain ⟨_, inner, ⟨⟩⟩ := bind_eq_ok.mp read
      exact needExpr_sound closed given expr inner
    · obtain ⟨_, tested, read⟩ := bind_eq_ok.mp read
      obtain ⟨_, first, read⟩ := bind_eq_ok.mp read
      obtain ⟨other, second, ⟨⟩⟩ := bind_eq_ok.mp read
      have test := needExpr_sound closed given cond tested
      have inside := readStmts_valid closed given whenTrue first
      have beside := optionalStmts_valid closed given otherwise second
      cases other with
      | none => exact List.forall_mem_append.mpr ⟨test, inside⟩
      | some stmts =>
        exact List.forall_mem_append.mpr ⟨test, List.forall_mem_append.mpr ⟨inside, beside stmts rfl⟩⟩
    · obtain ⟨_, tested, read⟩ := bind_eq_ok.mp read
      obtain ⟨_, inner, ⟨⟩⟩ := bind_eq_ok.mp read
      exact List.forall_mem_append.mpr
        ⟨needExpr_sound closed given cond tested, readStmts_valid closed given body inner⟩
    · obtain ⟨_, inner, ⟨⟩⟩ := bind_eq_ok.mp read
      exact readStmts_valid closed given body inner
    · cases read
termination_by structural node => node

theorem needStmt_valid (closed : Ty.Closed structs)
    (given : ∀ entry ∈ known, entry.2.Declared structs) :
    (node : Option RawNode) → {stmt : Stmt} → needStmt known node = .ok stmt →
      ∀ node ∈ stmt.nodes, node.Valid structs
  | none, _, read => nomatch read
  | some node, _, read => readStmt_valid closed given node read
termination_by structural node => node

theorem readStmts_valid (closed : Ty.Closed structs)
    (given : ∀ entry ∈ known, entry.2.Declared structs) :
    (nodes : List (Option RawNode)) → {stmts : List Stmt} → readStmts known nodes = .ok stmts →
      ∀ node ∈ Stmt.nodesOf stmts, node.Valid structs
  | [], _, read => by
    cases read
    simp [Stmt.nodesOf]
  | node :: rest, _, read => by
    rw [readStmts] at read
    obtain ⟨_, first, read⟩ := bind_eq_ok.mp read
    obtain ⟨_, following, ⟨⟩⟩ := bind_eq_ok.mp read
    exact List.forall_mem_append.mpr ⟨needStmt_valid closed given node first,
      readStmts_valid closed given rest following⟩
termination_by structural nodes => nodes

theorem optionalStmts_valid (closed : Ty.Closed structs)
    (given : ∀ entry ∈ known, entry.2.Declared structs) :
    (nodes : Option (RawList (Option RawNode))) → {other : Option (List Stmt)} →
      optionalStmts known nodes = .ok other →
      ∀ stmts ∈ other, ∀ node ∈ Stmt.nodesOf stmts, node.Valid structs
  | none, _, read => by
    cases read
    exact fun _ absent => nomatch absent
  | some ⟨nodes, _⟩, _, read => by
    rw [optionalStmts] at read
    obtain ⟨stmts, inner, rfl⟩ := map_eq_ok.mp read
    rintro _ ⟨⟩
    exact readStmts_valid closed given nodes inner
termination_by structural nodes => nodes

end

end Document
end Nasm64
