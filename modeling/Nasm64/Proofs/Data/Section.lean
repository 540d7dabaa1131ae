import Nasm64.Data.Section

/-! The labels of a data section. Each of them is there once, whatever is added, and derived from what
stands at it. -/
namespace Nasm64.DataSection

def labels (data : DataSection) : List String := data.entries.map Data.Entry.label

variable {data other : DataSection} {label used : String} {item : Data.Item}

/-- A label is taken exactly if some entry has it. -/
theorem contains_seen : data.seen.val.contains label = true ↔ label ∈ data.labels := by
  rw [List.contains_iff_mem, data.seen.property, labels]

/-- A section is known by its entries. -/
theorem eq_of_entries (same : data.entries = other.entries) : data = other := by
  obtain ⟨entries, seen⟩ := data
  obtain ⟨entries', seen'⟩ := other
  obtain rfl : entries = entries' := same
  rw [Subtype.ext (seen.property.trans seen'.property.symm)]

theorem add_of_mem (bound : label ∈ data.labels) : data.add label item = data := by
  rw [add, if_pos (contains_seen.mpr bound)]

theorem add_of_not_mem (fresh : label ∉ data.labels) :
    data.add label item = { entries := data.entries ++ [⟨label, item⟩] } := by
  rw [add, if_neg (mt contains_seen.mp fresh)]
  exact eq_of_entries rfl

theorem mem_labels_add : used ∈ (data.add label item).labels ↔ used ∈ data.labels ∨ used = label := by
  by_cases known : label ∈ data.labels
  · rw [add_of_mem known]
    exact ⟨.inl, fun either => either.elim id fun same => same ▸ known⟩
  · simp [add_of_not_mem known, labels]

theorem nodup_labels_add (distinct : data.labels.Nodup) : (data.add label item).labels.Nodup := by
  by_cases known : label ∈ data.labels
  · rwa [add_of_mem known]
  · rw [add_of_not_mem known, labels, List.map_append, List.map_singleton, List.nodup_append]
    refine ⟨distinct, by simp, fun earlier mem added listed same => known ?_⟩
    obtain rfl := List.mem_singleton.mp listed
    exact same ▸ mem

theorem mem_labels_merge : used ∈ (data.merge other).labels ↔ used ∈ data.labels ∨ used ∈ other.labels := by
  unfold merge labels
  generalize other.entries = entries
  induction entries generalizing data with
  | nil => simp
  | cons entry rest ih =>
    have added : used ∈ (data.add entry.label entry.item).labels ↔ _ := mem_labels_add
    rw [List.foldl_cons, ih, List.map_cons, List.mem_cons, ← or_assoc]
    exact or_congr_left added

theorem nodup_labels_merge (distinct : data.labels.Nodup) : (data.merge other).labels.Nodup := by
  unfold merge
  generalize other.entries = entries
  induction entries generalizing data with
  | nil => exact distinct
  | cons entry rest ih => exact ih (nodup_labels_add distinct)

section

variable {α : Type} {outputs : List α} {section_ : α → DataSection}

theorem mem_labels_foldl :
    used ∈ (outputs.foldl (fun data output => data.merge (section_ output)) data).labels ↔
      used ∈ data.labels ∨ ∃ output ∈ outputs, used ∈ (section_ output).labels := by
  induction outputs generalizing data with
  | nil => simp
  | cons output rest ih =>
    rw [List.foldl_cons, ih, mem_labels_merge, or_assoc]
    simp

theorem nodup_labels_foldl (distinct : data.labels.Nodup) :
    (outputs.foldl (fun data output => data.merge (section_ output)) data).labels.Nodup := by
  induction outputs generalizing data with
  | nil => exact distinct
  | cons output rest ih => exact ih (nodup_labels_merge distinct)

end

def IsHash (label : String) : Prop := ∃ kind ∈ ["str", "flt", "lit"], ∃ bytes, label = hashLabel kind bytes

/-- The labels are defined in the section, each one a hash of what stands there. -/
def Backs (data : DataSection) (labels : List String) : Prop :=
  ∀ label ∈ labels, label ∈ data.labels ∧ IsHash label

end Nasm64.DataSection
