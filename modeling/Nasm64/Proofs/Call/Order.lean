import Nasm64.Call.Table

/-! Symbol tables do not depend on the order of declarations. Whether a signature is accepted is a
matter of each pair of signatures, and pairs have no order. -/
namespace Nasm64

/-- Signatures that one table can hold. Of one name, neither is defined elsewhere, and their labels
differ. -/
def Signature.Coexists (first second : Signature) : Prop :=
  first.name = second.name →
    first.isExternal = false ∧ second.isExternal = false ∧ first.label ≠ second.label

theorem Signature.Coexists.symm {first second : Signature} (coexists : first.Coexists second) :
    second.Coexists first := by
  intro named
  obtain ⟨inside, defined, apart⟩ := coexists named.symm
  exact ⟨defined, inside, apart.symm⟩

namespace SymbolTable

variable {table next : SymbolTable} {sig : Signature}

/-- The table after a sequence of declarations, of which some may be refused. -/
def declaring (table : SymbolTable) (sequence : List Signature) : SymbolTable :=
  sequence.foldl (fun table signature => (table.declare signature).toOption.getD table) table

/-- Every two signatures of the table can be in one. -/
def IsConsistent (table : SymbolTable) : Prop := table.signatures.Pairwise Signature.Coexists

theorem mem_candidates {name : String} :
    sig ∈ table.candidates name ↔ sig ∈ table.signatures ∧ sig.name = name := by
  simp [candidates]

namespace IsConsistent

variable (consistent : table.IsConsistent)

include consistent

theorem candidates (name : String) : (table.candidates name).Pairwise Signature.Coexists :=
  List.Pairwise.filter _ consistent

/-- A method defined elsewhere is the first of its name, so looking at the first is enough. -/
theorem head_external_iff (name : String) :
    (table.candidates name).head?.any Signature.isExternal = true ↔
      ∃ other ∈ table.candidates name, other.isExternal = true := by
  have apart := consistent.candidates name
  have named : ∀ other ∈ table.candidates name, other.name = name :=
    fun other mem => (mem_candidates.mp mem).2
  generalize table.candidates name = existing at apart named
  cases existing with
  | nil => simp
  | cons first rest =>
    refine ⟨fun external => ⟨first, by simp, external⟩, fun ⟨other, mem, external⟩ => ?_⟩
    rcases List.mem_cons.mp mem with rfl | mem
    · exact external
    have same : first.name = other.name :=
      (named first (by simp)).trans (named other (by simp [mem])).symm
    have inside := (List.rel_of_pairwise_cons apart mem same).2.1
    rw [inside] at external
    cases external

/-- A signature is accepted next to those that it can be in a table with. -/
theorem declare_eq_ok_iff : table.declare sig = .ok next ↔
    next = ⟨table.signatures ++ [sig]⟩ ∧ ∀ other ∈ table.signatures, other.Coexists sig := by
  have head := consistent.head_external_iff sig.name
  have known : ∀ {other}, other ∈ table.candidates sig.name ↔ _ := mem_candidates
  unfold declare
  dsimp only
  split
  · rename_i overloaded
    simp only [Bool.and_eq_true, Bool.not_eq_true', List.isEmpty_eq_false_iff_exists_mem,
      Bool.or_eq_true, head] at overloaded
    obtain ⟨⟨other, mem⟩, external⟩ := overloaded
    refine ⟨nofun, fun ⟨_, coexist⟩ => ?_⟩
    rcases external with own | ⟨another, listed, outside⟩
    · have inside := (coexist other (known.mp mem).1 (known.mp mem).2).2.1
      exact absurd own (by simp [inside])
    · have inside := (coexist another (known.mp listed).1 (known.mp listed).2).1
      exact absurd outside (by simp [inside])
  · rename_i plain
    simp only [Bool.and_eq_true, Bool.not_eq_true', List.isEmpty_eq_false_iff_exists_mem,
      Bool.or_eq_true, head, not_and, not_or, not_exists] at plain
    split
    · rename_i twice
      obtain ⟨other, mem, same⟩ := List.any_eq_true.mp twice
      refine ⟨nofun, fun ⟨_, coexist⟩ => ?_⟩
      exact absurd (beq_iff_eq.mp same) (coexist other (known.mp mem).1 (known.mp mem).2).2.2
    · rename_i fresh
      rw [Except.ok.injEq, eq_comm]
      refine ⟨fun same => ⟨same, fun other mem named => ?_⟩, And.left⟩
      have listed := known.mpr ⟨mem, named⟩
      obtain ⟨own, others⟩ := plain ⟨other, listed⟩
      refine ⟨by simpa using others other listed, by simpa using own, fun equal => fresh ?_⟩
      exact List.any_eq_true.mpr ⟨other, listed, beq_iff_eq.mpr equal⟩

theorem declare (declared : table.declare sig = .ok next) : next.IsConsistent := by
  obtain ⟨rfl, coexist⟩ := consistent.declare_eq_ok_iff.mp declared
  refine List.pairwise_append.mpr ⟨consistent, List.pairwise_singleton _ _, ?_⟩
  intro other mem last single
  obtain rfl := List.mem_singleton.mp single
  exact coexist other mem

theorem declaring (sequence : List Signature) : (table.declaring sequence).IsConsistent := by
  induction sequence generalizing table with
  | nil => exact consistent
  | cons sig rest ih =>
    rw [SymbolTable.declaring, List.foldl_cons]
    refine ih ?_
    cases declared : table.declare sig with
    | ok next => exact consistent.declare declared
    | error => exact consistent

/-- A method defined elsewhere has its name for itself. -/
theorem candidates_eq_singleton (mem : sig ∈ table.signatures) (external : sig.isExternal = true) :
    table.candidates sig.name = [sig] := by
  have listed : sig ∈ table.candidates sig.name := mem_candidates.mpr ⟨mem, rfl⟩
  have apart := consistent.candidates sig.name
  have named : ∀ other ∈ table.candidates sig.name, other.name = sig.name :=
    fun other mem => (mem_candidates.mp mem).2
  generalize table.candidates sig.name = existing at listed apart named
  obtain ⟨before, after, rfl⟩ := List.append_of_mem listed
  obtain ⟨_, inner, across⟩ := List.pairwise_append.mp apart
  have outside : ∀ {other : Signature}, ¬ (other.Coexists sig ∧ other.name = sig.name) := by
    rintro other ⟨coexists, same⟩
    rw [(coexists same).2.1] at external
    cases external
  have none : before = [] := List.eq_nil_iff_forall_not_mem.mpr fun other mem =>
    outside ⟨across other mem sig (by simp), named other (by simp [mem])⟩
  have last : after = [] := List.eq_nil_iff_forall_not_mem.mpr fun other mem =>
    outside ⟨(List.rel_of_pairwise_cons inner mem).symm, named other (by simp [mem])⟩
  rw [none, last]
  rfl

end IsConsistent

/-- The table after a sequence of declarations that are all accepted. -/
def declareEach (table : SymbolTable) (sequence : List Signature) :
    Except DeclareError SymbolTable := sequence.foldlM declare table

/-- All of a sequence is accepted if and only if every two of it can be in one table. -/
theorem declareEach_eq_ok_iff (consistent : table.IsConsistent) {sequence : List Signature} :
    table.declareEach sequence = .ok next ↔ next = ⟨table.signatures ++ sequence⟩ ∧
      (table.signatures ++ sequence).Pairwise Signature.Coexists := by
  induction sequence generalizing table with
  | nil =>
    rw [List.append_nil]
    refine ⟨fun done => ⟨(Except.ok.inj done).symm, consistent⟩, fun ⟨same, _⟩ => same ▸ rfl⟩
  | cons sig rest ih =>
    rw [declareEach, List.foldlM_cons]
    cases declared : table.declare sig with
    | ok middle =>
      obtain ⟨rfl, _⟩ := consistent.declare_eq_ok_iff.mp declared
      show SymbolTable.declareEach _ rest = _ ↔ _
      simpa using ih (consistent.declare declared)
    | error problem =>
      refine ⟨nofun, fun ⟨_, apart⟩ => ?_⟩
      obtain ⟨_, _, across⟩ := List.pairwise_append.mp apart
      have accepted := consistent.declare_eq_ok_iff.mpr
        ⟨rfl, fun other mem => across other mem sig (by simp)⟩
      cases declared.symm.trans accepted

/-- Answers to a call that differ at most in the order in which candidates are listed. -/
inductive SameAnswer : Except LookupError Signature → Except LookupError Signature → Prop
  | found (signature : Signature) : SameAnswer (.ok signature) (.ok signature)
  | unresolved (name : String) : SameAnswer (.error (.unresolved name)) (.error (.unresolved name))
  | noMatch {name : String} {first second : List Signature} {provided : List Ty}
    (candidates : first.Perm second) :
    SameAnswer (.error (.noMatch name first provided)) (.error (.noMatch name second provided))
  | ambiguous {name : String} {first second : List Signature} {provided : List Ty}
    (candidates : first.Perm second) :
    SameAnswer (.error (.ambiguous name first provided)) (.error (.ambiguous name second provided))

theorem lookup_perm {other : SymbolTable} (perm : table.signatures.Perm other.signatures)
    (name : String) (arguments : List Ty) :
    SameAnswer (table.lookup name arguments) (other.lookup name arguments) := by
  have named : (table.candidates name).Perm (other.candidates name) := perm.filter _
  have accepted := named.filter fun signature => signature.accepts arguments
  unfold lookup
  dsimp only
  rw [named.isEmpty_eq]
  split
  · exact .unresolved name
  · generalize (table.candidates name).filter _ = found, (other.candidates name).filter _ = again
      at accepted ⊢
    match found, again, accepted with
    | [], again, accepted =>
      obtain rfl := List.nil_perm.mp accepted
      exact .noMatch named
    | [signature], again, accepted =>
      obtain rfl := List.singleton_perm.mp accepted
      exact .found signature
    | _ :: _ :: _, [], accepted => cases accepted.length_eq
    | _ :: _ :: _, [_], accepted => cases accepted.length_eq
    | _ :: _ :: _, _ :: _ :: _, accepted => exact .ambiguous accepted

end SymbolTable

/-- A sequence of declarations is accepted in one order if and only if it is in every other, and then
calls mean the same. Whatever is declared or refused, a method defined elsewhere is the only one of
its name. -/
theorem declaration_order_irrelevant (sequence : List Signature) :
    (∀ reordered : List Signature, sequence.Perm reordered →
      ((∃ table, SymbolTable.declareEach {} sequence = .ok table) ↔
        ∃ table, SymbolTable.declareEach {} reordered = .ok table) ∧
      ∀ table other : SymbolTable, SymbolTable.declareEach {} sequence = .ok table →
        SymbolTable.declareEach {} reordered = .ok other → ∀ (name : String) (arguments : List Ty),
          SymbolTable.SameAnswer (table.lookup name arguments) (other.lookup name arguments)) ∧
    ∀ sig ∈ (SymbolTable.declaring {} sequence).signatures, sig.isExternal = true →
      (SymbolTable.declaring {} sequence).candidates sig.name = [sig] := by
  have empty : ({} : SymbolTable).IsConsistent := List.Pairwise.nil
  refine ⟨fun reordered perm => ⟨?_, fun table other first second => ?_⟩, ?_⟩
  · simp only [SymbolTable.declareEach_eq_ok_iff empty, exists_eq_left, List.nil_append]
    exact perm.pairwise_iff Signature.Coexists.symm
  · obtain ⟨rfl, _⟩ := (SymbolTable.declareEach_eq_ok_iff empty).mp first
    obtain ⟨rfl, _⟩ := (SymbolTable.declareEach_eq_ok_iff empty).mp second
    exact SymbolTable.lookup_perm perm
  · exact fun sig mem external => (empty.declaring sequence).candidates_eq_singleton mem external

/-- Two overloads, of which one is variadic, and a method defined elsewhere, in two orders. -/
theorem declaration_order_irrelevant_overloads :
    let row : Signature := ⟨"f", [.array 4 (.prim .i64)], .void, false, false⟩
    let rest : Signature := ⟨"f", [], .void, false, true⟩
    let outside : Signature := ⟨"puts", [.pointer (.prim .u8)], .prim .i32, true, false⟩
    (∃ table other : SymbolTable, SymbolTable.declareEach {} [row, rest, outside] = .ok table ∧
      SymbolTable.declareEach {} [outside, rest, row] = .ok other ∧
      SymbolTable.SameAnswer (table.lookup "f" [.pointer (.prim .i64)])
        (other.lookup "f" [.pointer (.prim .i64)]) ∧
      table.lookup "f" [.pointer (.prim .i64)] =
        .error (.ambiguous "f" [row, rest] [.pointer (.prim .i64)])) ∧
    (SymbolTable.declaring {} [row, outside, outside]).candidates "puts" = [outside] := by
  intro row rest outside
  obtain ⟨orders, _⟩ := declaration_order_irrelevant [row, rest, outside]
  have perm : [row, rest, outside].Perm [outside, rest, row] :=
    (List.reverse_perm [row, rest, outside]).symm
  refine ⟨⟨_, _, rfl, rfl, (orders _ perm).2 _ _ rfl rfl "f" _, rfl⟩, ?_⟩
  have listed : outside ∈ (SymbolTable.declaring {} [row, outside, outside]).signatures := by
    show outside ∈ [row, outside]
    simp
  exact (declaration_order_irrelevant [row, outside, outside]).2 outside listed rfl

end Nasm64
