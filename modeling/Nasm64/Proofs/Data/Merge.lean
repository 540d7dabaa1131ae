import Mathlib.Algebra.Group.Nat.Defs
import Mathlib.Logic.Function.Basic
import Nasm64.Proofs.Data.Section
import Nasm64.Proofs.Text.Decimal

/-! Data sections under any sequence of insertions and merges. A section holds the first entry of each
label, and as long as no two constants have the same hash, what stands at the label of a constant is
that constant. -/
namespace Nasm64

namespace DataSection

/-- The first entry of each label, in order. -/
def firstOfEach : List Data.Entry → List Data.Entry
  | [] => []
  | entry :: rest => entry :: (firstOfEach rest).filter fun other => other.label != entry.label

variable {data first second third : DataSection} {label : String} {item : Data.Item}

theorem mem_entries_add {entry : Data.Entry} (mem : entry ∈ (data.add label item).entries) :
    entry ∈ data.entries ∨ entry = ⟨label, item⟩ := by
  by_cases bound : label ∈ data.labels
  · rw [add_of_mem bound] at mem
    exact .inl mem
  · rw [add_of_not_mem bound] at mem
    simpa using mem

theorem mem_entries_merge {entry : Data.Entry} (mem : entry ∈ (first.merge second).entries) :
    entry ∈ first.entries ∨ entry ∈ second.entries := by
  unfold merge at mem
  generalize second.entries = entries at mem ⊢
  induction entries generalizing first with
  | nil => exact .inl mem
  | cons next rest ih =>
    rcases ih mem with earlier | later
    · rcases mem_entries_add earlier with known | rfl
      · exact .inl known
      · exact .inr (by simp)
    · exact .inr (by simp [later])

/-- A merge appends what comes first of its label and is not there yet. -/
theorem entries_merge (data other : DataSection) : (data.merge other).entries =
    data.entries ++ (firstOfEach other.entries).filter fun entry => entry.label ∉ data.labels := by
  unfold merge
  generalize other.entries = entries
  induction entries generalizing data with
  | nil => simp [firstOfEach]
  | cons entry rest ih =>
    rw [List.foldl_cons, ih, firstOfEach, List.filter_cons, List.filter_filter]
    by_cases bound : entry.label ∈ data.labels
    · rw [add_of_mem bound, if_neg (by simpa using bound)]
      congr 1
      apply List.filter_congr
      intro other _
      by_cases same : other.label = entry.label <;> simp [same, bound]
    · rw [add_of_not_mem bound, if_pos (by simpa using bound), List.append_assoc]
      congr 1
      refine congrArg (entry :: ·) (List.filter_congr ?_)
      intro other _
      by_cases same : other.label = entry.label <;> simp [labels, same]

theorem merge_of_subset (bound : second.labels ⊆ first.labels) : first.merge second = first := by
  unfold merge
  unfold labels at bound
  generalize second.entries = entries at bound
  induction entries with
  | nil => rfl
  | cons entry rest ih =>
    rw [List.map_cons, List.cons_subset] at bound
    rw [List.foldl_cons, add_of_mem bound.1]
    exact ih bound.2

theorem merge_add (first second : DataSection) (label : String) (item : Data.Item) :
    first.merge (second.add label item) = (first.merge second).add label item := by
  by_cases bound : label ∈ second.labels
  · rw [add_of_mem bound, add_of_mem (mem_labels_merge.mpr (.inr bound))]
  · rw [add_of_not_mem bound, merge, List.foldl_append]
    rfl

theorem merge_assoc (first second third : DataSection) :
    (first.merge second).merge third = first.merge (second.merge third) := by
  show third.entries.foldl _ (first.merge second) = first.merge (third.entries.foldl _ second)
  generalize third.entries = entries
  induction entries generalizing second with
  | nil => rfl
  | cons entry rest ih => rw [List.foldl_cons, List.foldl_cons, ← ih, merge_add]

/-- Sections merged in order hold the first entry of each label of all their entries. -/
theorem entries_foldl_merge (sections : List DataSection) :
    (sections.foldl merge {}).entries = firstOfEach (sections.flatMap entries) := by
  have joined : ∀ data : DataSection,
      sections.foldl merge data = data.merge { entries := sections.flatMap entries } := by
    induction sections with
    | nil => exact fun data => rfl
    | cons section_ rest ih =>
      intro data
      rw [List.foldl_cons, ih, List.flatMap_cons, merge, merge, merge, List.foldl_append]
  rw [joined, entries_merge]
  simp [labels]

/-- The text that stands at a label. -/
def body? (data : DataSection) (label : String) : Option String :=
  (data.entries.find? fun entry => entry.label == label).map fun entry => entry.item.text

end DataSection

namespace Text

theorem digitChar_injective : ∀ first second : Fin 16,
    Nat.digitChar first = Nat.digitChar second → first = second := by decide

theorem hexDigits_inj (same : hexDigits width first = hexDigits width second) :
    first % 16 ^ width = second % 16 ^ width := by
  induction width generalizing first second with
  | zero => rw [pow_zero, Nat.mod_one, Nat.mod_one]
  | succ width ih =>
    obtain ⟨front, last⟩ := List.append_inj' same rfl
    have low := digitChar_injective ⟨first % 16, Nat.mod_lt _ (by decide)⟩
      ⟨second % 16, Nat.mod_lt _ (by decide)⟩ (List.singleton_inj.mp last)
    rw [pow_succ', Nat.mod_mul, Nat.mod_mul, ih front, Fin.mk.inj low]

end Text

namespace Data

/-- A constant that is put into a section. A float takes four bytes or eight. -/
inductive Literal where
  | string (text : String)
  | float (value : Double) (isSingle : Bool)
  | struct (type : Ty) (values : List (String × Expr))

inductive Kind where
  | str | flt | lit
deriving DecidableEq

def Kind.text : Kind → String
  | str => "str"
  | flt => "flt"
  | lit => "lit"

/-- What a section stores for a constant, and what its label is made from. -/
structure Form where
  kind : Kind
  key : List UInt8
  item : Item

def Form.label (form : Form) : String := DataSection.hashLabel form.kind.text form.key

open DataSection

namespace Literal

def floatSize (isSingle : Bool) : Int := if isSingle then 4 else 8

/-- A struct literal has a form when all its values are constants. -/
def form? : Literal → Option Form
  | string text => some ⟨.str, utf8 text, .bytes (utf8 text)⟩
  | float value isSingle => some ⟨.flt, floatKey value (floatSize isSingle),
    .scalar (.ofDouble value (floatSize isSingle))⟩
  | struct ty values => (constantFields? ty.fields values).map fun fields =>
    ⟨.lit, utf8 (Item.record ty.name fields).text, .record ty.name fields⟩

/-- The label of a constant and the section with it. -/
def insert (data : DataSection) : Literal → Option (String × DataSection)
  | string text => some (data.addString text)
  | float value isSingle => some (data.addFloat value (floatSize isSingle))
  | struct ty values => data.addStruct? ty values

theorem insert_eq (data : DataSection) (literal : Literal) : literal.insert data =
    literal.form?.map fun form => (form.label, data.add form.label form.item) := by
  cases literal with
  | string text => rfl
  | float v isSingle => rfl
  | struct ty values =>
    rw [form?, Option.map_map]
    rfl

end Literal

namespace Form

theorem label_inj {first second : Form} (same : first.label = second.label) :
    first.kind = second.kind ∧ Hash.hash64 first.key = Hash.hash64 second.key := by
  have length : first.kind.text.toList.length = second.kind.text.toList.length := by
    cases first.kind <;> cases second.kind <;> decide
  have letters := congrArg String.toList same
  simp only [label, hashLabel, String.toList_append, List.append_assoc] at letters
  obtain ⟨kinds, rest⟩ := List.append_inj letters length
  have digits : Text.hexDigits 16 (Hash.hash64 first.key).toNat =
      Text.hexDigits 16 (Hash.hash64 second.key).toNat := by
    simpa [Text.hex] using rest
  have numbers : _ % 2 ^ 64 = _ % 2 ^ 64 := Text.hexDigits_inj digits
  rw [Nat.mod_eq_of_lt (Hash.hash64 first.key).toNat_lt,
    Nat.mod_eq_of_lt (Hash.hash64 second.key).toNat_lt] at numbers
  refine ⟨?_, UInt64.toNat_inj.mp numbers⟩
  revert kinds
  cases first.kind <;> cases second.kind <;> decide

theorem utf8_inj {first second : String} (same : utf8 first = utf8 second) : first = second :=
  String.toByteArray_inj.mp (ByteArray.ext (Array.toList_inj.mp same))

theorem byte_toNat (word : UInt64) (small : index < 8) :
    (word >>> (8 * UInt64.ofNat index)).toUInt8.toNat = word.toNat / 256 ^ index % 256 := by
  have count : (8 * UInt64.ofNat index).toNat % 64 = 8 * index := by
    rw [UInt64.toNat_mul, UInt64.toNat_ofNat', show (8 : UInt64).toNat = 8 from rfl]
    omega
  rw [UInt64.toNat_toUInt8, UInt64.toNat_shiftRight, count, Nat.shiftRight_eq_div_pow, Nat.pow_mul]

/-- A word is known by its bytes. -/
theorem bytes_inj {first second : UInt64}
    (same : ∀ index < 8, (first >>> (8 * UInt64.ofNat index)).toUInt8 =
      (second >>> (8 * UInt64.ofNat index)).toUInt8) : first = second := by
  have parts : ∀ count ≤ 8, first.toNat % 256 ^ count = second.toNat % 256 ^ count := by
    intro count
    induction count with
    | zero => simp [Nat.mod_one]
    | succ count ih =>
      intro small
      have digit := congrArg UInt8.toNat (same count small)
      rw [byte_toNat first small, byte_toNat second small] at digit
      rw [Nat.mod_pow_succ, Nat.mod_pow_succ, ih (Nat.le_of_succ_le small), digit]
  have whole : _ % 2 ^ 64 = _ % 2 ^ 64 := parts 8 (Nat.le_refl 8)
  rw [Nat.mod_eq_of_lt first.toNat_lt, Nat.mod_eq_of_lt second.toNat_lt] at whole
  exact UInt64.toNat_inj.mp whole

theorem floatKey_inj {v other : Double} {isSingle single : Bool}
    (same : floatKey v (Literal.floatSize isSingle) = floatKey other (Literal.floatSize single)) :
    v = other ∧ isSingle = single := by
  obtain ⟨size, bytes⟩ := List.cons.inj same
  have bits : v.bits = other.bits := bytes_inj fun index small =>
    List.map_inj_left.mp bytes index (List.mem_range.mpr small)
  refine ⟨by cases v; cases other; exact congrArg Double.mk bits, ?_⟩
  revert size
  cases isSingle <;> cases single <;> decide

/-- Constants of one kind and one key are stored alike. -/
theorem text_eq_of_key_eq {literal other : Literal} {first second : Form}
    (formed : literal.form? = some first) (another : other.form? = some second)
    (kinds : first.kind = second.kind) (keys : first.key = second.key) :
    first.item.text = second.item.text := by
  cases literal with
  | string text =>
    cases formed
    cases other with
    | string text =>
      cases another
      exact congrArg (Item.text ∘ Item.bytes) keys
    | float v isSingle => cases another; cases kinds
    | struct ty values =>
      obtain ⟨_, _, rfl⟩ := Option.map_eq_some_iff.mp another
      cases kinds
  | float v isSingle =>
    cases formed
    cases other with
    | string text => cases another; cases kinds
    | float v isSingle =>
      cases another
      obtain ⟨rfl, rfl⟩ := floatKey_inj keys
      rfl
    | struct ty values =>
      obtain ⟨_, _, rfl⟩ := Option.map_eq_some_iff.mp another
      cases kinds
  | struct ty values =>
    obtain ⟨_, _, rfl⟩ := Option.map_eq_some_iff.mp formed
    cases other with
    | struct ty values =>
      obtain ⟨_, _, rfl⟩ := Option.map_eq_some_iff.mp another
      exact utf8_inj keys
    | _ => cases another; cases kinds

end Form

/-- Reads the numbers of a `db` line, whatever blanks there are. -/
def readBytes? (text : String) : Option (List Nat) :=
  match text.toList with
  | 'd' :: 'b' :: numbers => ((numbers.filter (· != ' ')).splitOn ',').mapM Text.natural?
  | _ => none

theorem readNumbers_intercalate (number : Nat) (rest : List Nat) :
    (((", ".intercalate ((number :: rest).map toString)).toList.filter (· != ' ')).splitOn ',').mapM
      Text.natural? = some (number :: rest) := by
  have solid (number : Nat) : (toString number).toList.filter (· != ' ') = (toString number).toList := by
    rw [List.filter_eq_self]
    rintro letter mem
    rw [bne_iff_ne]
    rintro rfl
    cases isDigit_of_mem_toString mem
  have single (number : Nat) : ((toString number).toList).splitOn ',' = [(toString number).toList] :=
    List.splitOn_eq_singleton fun mem => nomatch isDigit_of_mem_toString mem
  have comma : ", ".toList.filter (· != ' ') = [','] := by decide
  induction rest generalizing number with
  | nil =>
    rw [List.map_singleton, String.intercalate_singleton, solid, single, List.mapM_cons,
      Text.natural?_toString]
    rfl
  | cons next rest ih =>
    rw [List.map_cons, List.map_cons, String.intercalate_cons_cons, String.append_assoc,
      String.toList_append, String.toList_append, List.filter_append, List.filter_append, solid]
    rw [comma, List.singleton_append, List.splitOn_append_cons_self, single, List.singleton_append, List.mapM_cons,
      Text.natural?_toString]
    have others := ih next
    rw [List.map_cons] at others
    rw [others]
    rfl

/-- The text of a string is read back as its bytes and a zero. -/
theorem readBytes?_bytes (content : List UInt8) :
    readBytes? (Item.bytes content).text = some (content.map UInt8.toNat ++ [0]) := by
  have numbers : content.map (fun byte => toString byte.toNat) ++ ["0"] =
      (content.map UInt8.toNat ++ [0]).map toString := by
    rw [List.map_append, List.map_map]
    rfl
  obtain ⟨number, rest, listed⟩ : ∃ number rest, content.map UInt8.toNat ++ [0] = number :: rest :=
    List.exists_cons_of_ne_nil (by simp)
  have read := readNumbers_intercalate number rest
  rw [← listed, ← numbers] at read
  rw [Item.text, readBytes?, String.toList_append]
  exact read

end Data

namespace DataSection

open Data

/-- What is done to sections, which go by numbers. -/
inductive Change where
  | insert (target : Nat) (literal : Literal)
  | merge (target source : Nat)

namespace Change

def target : Change → Nat
  | insert target _ | merge target _ => target

def literal? : Change → Option Literal
  | insert _ literal => some literal
  | merge .. => none

/-- The label that is handed back. -/
def label? (sections : Nat → DataSection) : Change → Option String
  | insert target literal => (literal.insert (sections target)).map Prod.fst
  | merge .. => none

/-- What becomes of the section that is changed. -/
def result (sections : Nat → DataSection) : Change → DataSection
  | insert target literal => ((literal.insert (sections target)).map Prod.snd).getD (sections target)
  | merge target source => (sections target).merge (sections source)

def apply (sections : Nat → DataSection) (change : Change) : Nat → DataSection :=
  Function.update sections change.target (change.result sections)

theorem label?_insert (sections : Nat → DataSection) (target : Nat) (literal : Literal) :
    (insert target literal).label? sections = literal.form?.map Form.label := by
  rw [label?, Literal.insert_eq, Option.map_map]
  rfl

theorem result_insert (sections : Nat → DataSection) (target : Nat) (literal : Literal) :
    (insert target literal).result sections =
      (literal.form?.map fun form => (sections target).add form.label form.item).getD (sections target) := by
  rw [result, Literal.insert_eq, Option.map_map]
  rfl

end Change

/-- The sections after a sequence of changes. -/
def sectionsAfter (changes : List Change) : Nat → DataSection := changes.foldl Change.apply fun _ => {}

/-- The forms of the constants that are inserted. -/
def forms (changes : List Change) : List Form :=
  (changes.filterMap Change.literal?).filterMap Literal.form?

theorem Change.label_mem_apply {sections : Nat → DataSection} {change : Change}
    (handed : change.label? sections = some label) :
    label ∈ (change.apply sections change.target).labels := by
  cases change with
  | merge target source => cases handed
  | insert target literal =>
    rw [label?_insert, Option.map_eq_some_iff] at handed
    obtain ⟨form, formed, rfl⟩ := handed
    rw [apply, Change.target, Function.update_self, result_insert, formed]
    exact mem_labels_add.mpr (.inr rfl)

theorem mem_forms {changes : List Change} {target : Nat} {literal : Literal} {form : Form}
    (listed : .insert target literal ∈ changes) (formed : literal.form? = some form) :
    form ∈ forms changes :=
  List.mem_filterMap.mpr ⟨literal, List.mem_filterMap.mpr ⟨_, listed, rfl⟩, formed⟩

/-- What holds of an empty section, and is kept by the constants of the sequence and by merges. -/
theorem sectionsAfter_induction (holds : DataSection → Prop) (changes : List Change) (empty : holds {})
    (add : ∀ data, ∀ form ∈ forms changes, holds data → holds (data.add form.label form.item))
    (merge : ∀ first second, holds first → holds second → holds (first.merge second)) (place : Nat) :
    holds (sectionsAfter changes place) := by
  have step : ∀ (sections : Nat → DataSection), (∀ place, holds (sections place)) →
      ∀ change ∈ changes, ∀ place, holds (change.apply sections place) := by
    intro sections each change mem place
    rw [Change.apply, Function.update_apply]
    split
    · cases change with
      | merge target source => exact merge _ _ (each _) (each _)
      | insert target literal =>
        rw [Change.result_insert]
        cases formed : literal.form? with
        | none => exact each target
        | some form => exact add _ form (mem_forms mem formed) (each target)
    · exact each place
  exact List.foldlRecOn changes Change.apply (fun _ => empty) step place

theorem labels_subset_apply (sections : Nat → DataSection) (change : Change) (place : Nat) :
    (sections place).labels ⊆ (change.apply sections place).labels := by
  intro label bound
  rw [Change.apply, Function.update_apply]
  split
  · subst place
    cases change with
    | merge target source => exact mem_labels_merge.mpr (.inl bound)
    | insert target literal =>
      rw [Change.result_insert]
      cases literal.form? with
      | none => exact bound
      | some form => exact mem_labels_add.mpr (.inl bound)
  · exact bound

/-- What is bound once stays bound. -/
theorem labels_subset_after (before : List Change) (change : Change) (after : List Change) (place : Nat) :
    (change.apply (sectionsAfter before) place).labels ⊆
      (sectionsAfter (before ++ change :: after) place).labels := by
  rw [show sectionsAfter (before ++ change :: after) = after.foldl Change.apply
    (change.apply (sectionsAfter before)) from List.foldl_append]
  refine List.foldlRecOn after Change.apply (motive := fun sections =>
    (change.apply (sectionsAfter before) place).labels ⊆ (sections place).labels) (fun _ => id) ?_
  exact fun sections grown next _ label bound => labels_subset_apply sections next place (grown bound)

/-- Every entry is there for a constant of the sequence. -/
theorem entries_sectionsAfter (changes : List Change) (place : Nat) :
    ∀ entry ∈ (sectionsAfter changes place).entries, ∃ form ∈ forms changes,
      entry = ⟨form.label, form.item⟩ := by
  refine sectionsAfter_induction (fun data => ∀ entry ∈ data.entries, ∃ form ∈ forms changes,
    entry = ⟨form.label, form.item⟩) changes nofun ?_ ?_ place
  · intro data form listed known entry mem
    rcases mem_entries_add mem with earlier | rfl
    · exact known entry earlier
    · exact ⟨form, listed, rfl⟩
  · intro first second known others entry mem
    exact (mem_entries_merge mem).elim (known entry) (others entry)

/-- No two constants of one kind have the same hash. -/
def NoCollision (changes : List Change) : Prop :=
  ∀ first ∈ forms changes, ∀ second ∈ forms changes, first.kind = second.kind →
    Hash.hash64 first.key = Hash.hash64 second.key → first.key = second.key

/-- Without collisions the entries of a label all have the text of its constant. -/
theorem body?_sectionsAfter {changes : List Change} (apart : NoCollision changes) {form : Form}
    (listed : form ∈ forms changes) (place : Nat)
    (bound : form.label ∈ (sectionsAfter changes place).labels) :
    (sectionsAfter changes place).body? form.label = some form.item.text := by
  obtain ⟨entry, mem, same⟩ := List.mem_map.mp bound
  obtain ⟨found, located⟩ : ∃ found, (sectionsAfter changes place).entries.find?
      (fun entry => entry.label == form.label) = some found :=
    Option.isSome_iff_exists.mp (List.find?_isSome.mpr ⟨entry, mem, beq_iff_eq.mpr same⟩)
  obtain ⟨other, given, rfl⟩ := entries_sectionsAfter changes place _ (List.mem_of_find?_eq_some located)
  have labels : other.label = form.label := by simpa using List.find?_some located
  obtain ⟨kinds, hashes⟩ := Form.label_inj labels
  obtain ⟨_, _, formed⟩ := List.mem_filterMap.mp given
  obtain ⟨_, _, another⟩ := List.mem_filterMap.mp listed
  rw [body?, located, Option.map_some]
  exact congrArg some (Form.text_eq_of_key_eq formed another kinds (apart _ given _ listed kinds hashes))

theorem body?_alone {literal : Literal} {form : Form} (formed : literal.form? = some form)
    (inserted : literal.insert {} = some (label, alone)) :
    label = form.label ∧ alone.body? label = some form.item.text := by
  rw [Literal.insert_eq, formed, Option.map_some] at inserted
  cases inserted
  refine ⟨rfl, ?_⟩
  rw [add_of_not_mem List.not_mem_nil]
  simp [body?]

end DataSection

open DataSection in
/-- Whatever is inserted and merged, the labels of a section are distinct, and what was handed back or
merged stays bound. Merging is idempotent and associative, and keeps the first entry of each label.
Without collisions of the hash, the label of a constant is bound to the text that the constant has in
a section of its own, which for a string is read back as its bytes and a zero. -/
theorem data_sections_sound (changes : List Change) :
    (∀ place, (sectionsAfter changes place).labels.Nodup) ∧
    (∀ before change after, changes = before ++ change :: after →
      (∀ label, change.label? (sectionsAfter before) = some label →
        label ∈ (sectionsAfter changes change.target).labels) ∧
      ∀ target source, change = .merge target source →
        (sectionsAfter before source).labels ⊆ (sectionsAfter changes target).labels) ∧
    (∀ first second third : DataSection, first.merge first = first ∧
      (first.merge second).merge second = first.merge second ∧
      (first.merge second).merge third = first.merge (second.merge third)) ∧
    (∀ sections : List DataSection,
      (sections.foldl merge {}).entries = firstOfEach (sections.flatMap entries)) ∧
    (NoCollision changes → ∀ target literal, .insert target literal ∈ changes →
      ∀ label alone, literal.insert {} = some (label, alone) →
        (∀ data, (literal.insert data).map Prod.fst = some label) ∧
        (sectionsAfter changes target).body? label = alone.body? label ∧
        (∀ place, label ∈ (sectionsAfter changes place).labels →
          (sectionsAfter changes place).body? label = alone.body? label) ∧
        ∀ text, literal = .string text → ∃ body, alone.body? label = some body ∧
          Data.readBytes? body = some ((utf8 text).map UInt8.toNat ++ [0])) := by
  refine ⟨?_, ?_, fun first second third => ?_, entries_foldl_merge, ?_⟩
  · exact sectionsAfter_induction (fun data => data.labels.Nodup) changes List.nodup_nil
      (fun _ _ _ => nodup_labels_add) fun _ _ distinct _ => nodup_labels_merge distinct
  · rintro before change after rfl
    refine ⟨fun label handed => labels_subset_after before change after _ (Change.label_mem_apply handed), ?_⟩
    rintro target source rfl label bound
    apply labels_subset_after before _ after
    rw [Change.apply, Change.target, Function.update_self]
    exact mem_labels_merge.mpr (.inr bound)
  · exact ⟨merge_of_subset fun _ => id, merge_of_subset fun _ mem => mem_labels_merge.mpr (.inr mem),
      merge_assoc first second third⟩
  · intro apart target literal listed label alone inserted
    obtain ⟨form, formed⟩ : ∃ form, literal.form? = some form := by
      rw [Data.Literal.insert_eq, Option.map_eq_some_iff] at inserted
      exact ⟨_, inserted.choose_spec.1⟩
    obtain ⟨rfl, body⟩ := body?_alone formed inserted
    have everywhere := body?_sectionsAfter apart (mem_forms listed formed)
    rw [body]
    refine ⟨fun data => ?_, everywhere target ?_, everywhere, ?_⟩
    · rw [Data.Literal.insert_eq, formed]
      rfl
    · obtain ⟨before, after, rfl⟩ := List.append_of_mem listed
      refine labels_subset_after before _ after target (Change.label_mem_apply ?_)
      rw [Change.label?_insert, formed]
      rfl
    · rintro text rfl
      cases formed
      exact ⟨_, rfl, Data.readBytes?_bytes _⟩

open DataSection in
/-- A string in two sections, a float and a struct beside them, and a merge of one into the other. -/
theorem data_sections_sound_shared :
    let hello : Data.Literal := .string "hi"
    let record : Data.Literal := .struct (.struct "S" [("a", .prim .i64)]) [("a", .number {} 5 (.prim .i64))]
    let changes : List Change :=
      [.insert 0 hello, .insert 0 (.float ⟨0x3ff0000000000000⟩ false), .insert 1 record, .insert 1 hello, .merge 0 1]
    NoCollision changes ∧ (sectionsAfter changes 0).labels.Nodup ∧
      (sectionsAfter (changes.take 4) 1).labels ⊆ (sectionsAfter changes 0).labels ∧
      ∃ label alone, record.insert {} = some (label, alone) ∧
        (sectionsAfter changes 0).body? label = some "istruc S\n        at S.a, dq 5\n    iend" := by
  intro hello record changes
  have apart : NoCollision changes := by
    unfold NoCollision
    decide +kernel
  obtain ⟨distinct, bound, _, _, bodies⟩ := data_sections_sound changes
  refine ⟨apart, distinct 0, (bound (changes.take 4) _ [] rfl).2 0 1 rfl, _, _, rfl, ?_⟩
  obtain ⟨_, _, everywhere, _⟩ := bodies apart 1 record (by simp [changes]) _ _ rfl
  exact (everywhere 0 (by decide +kernel)).trans (by decide +kernel)

end Nasm64
