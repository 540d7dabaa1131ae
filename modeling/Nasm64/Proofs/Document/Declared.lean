import Nasm64.Document.Program
import Nasm64.Proofs.Lower.Attempt

/-! The types of a document: every struct in them is one of those that it declares. -/
namespace Nasm64

open Attempt

namespace Ty

variable {structs : List Ty} {ty : Ty} {name : String}

def Declared (structs : List Ty) : Ty → Prop
  | prim _ | void => True
  | pointer target | array _ target => target.Declared structs
  | struct name fields => struct name fields ∈ structs

def Closed (structs : List Ty) : Prop :=
  ∀ name fields, struct name fields ∈ structs → ∀ field ∈ fields, field.2.Declared structs

theorem Declared.target (declared : ty.Declared structs) : ty.target.Declared structs := by
  cases ty with
  | pointer | array => exact declared
  | prim | void | struct => trivial

theorem Declared.record (declared : ty.Declared structs) : (Expr.record ty).Declared structs := by
  unfold Expr.record
  split
  · exact declared.target
  · exact declared

theorem mem_of_lookup {β : Type} {entries : List (String × β)} {v : β}
    (found : entries.lookup name = some v) : (name, v) ∈ entries := by
  obtain ⟨before, after, rfl, _⟩ := List.lookup_eq_some_iff.mp found
  simp

theorem find?_placeFields (fields : List (String × Ty)) (start : Int64) :
    ((placeFields start fields).find? fun field => field.name == name).map Field.type =
      fields.lookup name := by
  induction fields generalizing start with
  | nil => rfl
  | cons field rest ih =>
    obtain ⟨own, ty⟩ := field
    rw [placeFields, List.find?_cons, List.lookup_cons]
    by_cases same : own = name
    · subst same
      simp
    · have apart : (own == name) = false := beq_false_of_ne same
      have reverse : (name == own) = false := beq_false_of_ne (Ne.symm same)
      simp only [apart, reverse]
      exact ih _

theorem field?_eq_some (found : ty.field? name = some field) :
    ∃ own fields, ty = .struct own fields ∧ fields.lookup name = some field.type := by
  cases ty with
  | struct own fields =>
    refine ⟨own, fields, rfl, ?_⟩
    rw [← find?_placeFields fields 0]
    exact congrArg (Option.map Field.type) found
  | prim | void | pointer | array => cases found

theorem Closed.field? (closed : Closed structs) (declared : ty.Declared structs) {field : Field}
    (found : ty.field? name = some field) : field.type.Declared structs := by
  obtain ⟨own, fields, rfl, listed⟩ := field?_eq_some found
  exact closed own fields declared (name, field.type) (mem_of_lookup listed)

variable {known : Structs}

theorem named?_declared (given : ∀ entry ∈ known, entry.2.Declared structs)
    (found : named? known name = some ty) : ty.Declared structs := by
  unfold named? at found
  split at found
  · cases found
    trivial
  · split at found
    · cases found
      trivial
    · exact given (name, ty) (mem_of_lookup found)

/-- The structs in a type that is read are among those known by name. -/
theorem readChars_declared {text : List Char} (given : ∀ entry ∈ known, entry.2.Declared structs)
    (read : readChars known text = .ok ty) : ty.Declared structs := by
  fun_induction readChars known text generalizing ty with
  | case1 => cases read
  | case2 _ _ _ ih =>
    obtain ⟨dst, inner, same⟩ := bind_eq_ok.mp read
    cases same
    exact show dst.Declared structs from ih inner
  | case3 => cases read
  | case4 => cases read
  | case5 =>
    rename_i ih
    obtain ⟨element, inner, same⟩ := bind_eq_ok.mp read
    split at same
    · cases same
    · cases same
      exact show element.Declared structs from ih inner
  | case6 _ _ _ _ _ found =>
    cases read
    exact named?_declared given found
  | case7 => cases read

end Ty

namespace Document

variable {structs : List Ty} {known final : Ty.Structs}

section

variable (given : ∀ entry ∈ known, entry.2.Declared structs)

include given

theorem typeAt_declared (read : typeAt known pos text = .ok ty) : ty.Declared structs := by
  unfold typeAt at read
  split at read
  · next inner =>
    cases read
    exact Ty.readChars_declared given inner
  · cases read

theorem optionalType_declared (read : optionalType known pos text = .ok ty?) :
    ∀ ty ∈ ty?, ty.Declared structs := by
  unfold optionalType at read
  split at read
  · cases read
    exact fun _ absent => nomatch absent
  · obtain ⟨ty, inner, rfl⟩ := map_eq_ok.mp read
    rintro _ ⟨⟩
    exact typeAt_declared given inner

theorem readFieldTypes_declared (read : readFieldTypes known name raws = .ok fields) :
    ∀ field ∈ fields, field.2.Declared structs := by
  induction raws generalizing fields with
  | nil =>
    cases read
    simp
  | cons raw rest ih =>
    unfold readFieldTypes at read
    split at read
    · cases read
    · next ty inner =>
      obtain ⟨others, following, same⟩ := bind_eq_ok.mp read
      cases same
      exact List.forall_mem_cons.mpr ⟨Ty.readChars_declared given inner, ih following⟩

end

theorem readStructs_subset (read : readStructs known raws = .ok final) : known ⊆ final := by
  induction raws generalizing known with
  | nil =>
    cases read
    exact List.Subset.refl _
  | cons raw rest ih =>
    unfold readStructs at read
    split at read
    · cases read
    · obtain ⟨fields, _, following⟩ := bind_eq_ok.mp read
      exact List.Subset.trans (List.subset_cons_self _ _) (ih following)

def IsRecord (structs : List Ty) (ty : Ty) : Prop :=
  ∃ name fields, ty = .struct name fields ∧ ∀ field ∈ fields, field.2.Declared structs

theorem IsRecord.declared (record : IsRecord structs ty) (listed : ty ∈ structs) :
    ty.Declared structs := by
  obtain ⟨name, fields, rfl, _⟩ := record
  exact listed

/-- Each struct comes after those that its fields mention. -/
theorem readStructs_records (read : readStructs known raws = .ok final)
    (within : ∀ entry ∈ final, entry.2 ∈ structs)
    (records : ∀ entry ∈ known, IsRecord structs entry.2) :
    ∀ entry ∈ final, IsRecord structs entry.2 := by
  induction raws generalizing known with
  | nil =>
    cases read
    exact records
  | cons raw rest ih =>
    unfold readStructs at read
    split at read
    · cases read
    · obtain ⟨fields, inner, following⟩ := bind_eq_ok.mp read
      have later := readStructs_subset following
      have given : ∀ entry ∈ known, entry.2.Declared structs := by
        intro entry mem
        exact (records entry mem).declared (within entry (later (List.mem_cons_of_mem _ mem)))
      refine ih following (List.forall_mem_cons.mpr ⟨?_, records⟩)
      exact ⟨raw.name, fields, rfl, readFieldTypes_declared given inner⟩

theorem readStructs_closed (read : readStructs [] raws = .ok final) :
    Ty.Closed (final.reverse.map Prod.snd) ∧
      ∀ entry ∈ final, entry.2.Declared (final.reverse.map Prod.snd) := by
  have within : ∀ entry ∈ final, entry.2 ∈ final.reverse.map Prod.snd := fun entry mem =>
    List.mem_map_of_mem (List.mem_reverse.mpr mem)
  have records := readStructs_records read within (by simp)
  constructor
  · intro name fields listed field mem
    obtain ⟨entry, inside, same⟩ := List.mem_map.mp listed
    obtain ⟨_, _, known, declared⟩ := records entry (List.mem_reverse.mp inside)
    cases same.symm.trans known
    exact declared field mem
  · exact fun entry mem => (records entry mem).declared (within entry mem)

end Document
end Nasm64
