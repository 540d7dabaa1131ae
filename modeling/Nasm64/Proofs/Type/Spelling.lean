import Mathlib.Algebra.Group.Nat.Defs
import Mathlib.Data.List.DropRight
import Nasm64.Proofs.Lower.Attempt
import Nasm64.Proofs.Text.Decimal
import Nasm64.Ty.Reading

/-! The spelling of types. Reading and writing meet at the types that have a spelling: nothing else is
read, and each of them is read back from its text. -/
namespace Nasm64

namespace Text

def Trimmed (text : List Char) : Prop :=
  (∀ c ∈ text.head?, isBlank c = false) ∧ ∀ c ∈ text.getLast?, isBlank c = false

theorem trimLeft_of_head (solid : ∀ c ∈ text.head?, isBlank c = false) : trimLeft text = text := by
  cases text with
  | nil => rfl
  | cons c rest => simp [trimLeft, solid c rfl]

theorem head_trimLeft (text : List Char) : ∀ c ∈ (trimLeft text).head?, isBlank c = false := by
  intro c first
  have known := List.head?_dropWhile_not isBlank text
  rwa [show (text.dropWhile isBlank).head? = some c from first] at known

theorem Trimmed.trim_eq (trimmed : Trimmed text) : trim text = text := by
  have last : ∀ c ∈ text.reverse.head?, isBlank c = false := by simpa using trimmed.2
  rw [trim, trimLeft_of_head trimmed.1, trimLeft_of_head last, List.reverse_reverse]

theorem trimmed_trim (text : List Char) : Trimmed (trim text) := by
  constructor
  · intro c first
    obtain ⟨rest, whole⟩ : trim text <+: trimLeft text :=
      List.rdropWhile_prefix isBlank (trimLeft text)
    refine head_trimLeft text c ?_
    rw [← whole, List.head?_append, first]
    rfl
  · intro c last
    rw [trim, List.getLast?_reverse] at last
    exact head_trimLeft _ c last

theorem Trimmed.append (trimmed : Trimmed text) (filled : text ≠ [])
    (solid : ∀ c ∈ before, isBlank c = false) : Trimmed (before ++ text) := by
  constructor
  · cases before with
    | nil => exact trimmed.1
    | cons c rest =>
      rintro _ ⟨⟩
      exact solid c List.mem_cons_self
  · rw [List.getLast?_append_of_ne_nil _ filled]
    exact trimmed.2

theorem isBlank_of_isDigit {c : Char} (digit : c.isDigit = true) : isBlank c = false := by
  simp only [Char.isDigit, Bool.and_eq_true, decide_eq_true_eq, UInt32.le_iff_toNat_le] at digit
  have low : 48 ≤ c.toNat := digit.1
  have high : c.toNat ≤ 57 := digit.2
  simp only [isBlank, Bool.or_eq_false_iff, Bool.and_eq_false_iff, decide_eq_false_iff_not,
    beq_eq_false_iff_ne]
  omega

/-- A number is read back from its digits when it fits a word. -/
theorem word?_toString (fits : number < 2 ^ 63) :
    word? (toString number).toList = some (Int64.ofNat number) := by
  have read : integer? (toString number).toList = some (number : Int) := by
    have v := natural?_toString number
    unfold integer?
    split
    · next rest spelled =>
      have digit : ('-' : Char).isDigit = true := isDigit_of_mem_toString (spelled ▸ List.mem_cons_self)
      cases digit
    · next rest spelled =>
      have digit : ('+' : Char).isDigit = true := isDigit_of_mem_toString (spelled ▸ List.mem_cons_self)
      cases digit
    · rw [v]
      rfl
  have inside : fitsWord number = true := by
    simp only [fitsWord, Bool.and_eq_true, decide_eq_true_eq]
    omega
  simp only [word?, read, inside, if_true]
  rfl

end Text

namespace Ty

open Text Attempt

variable {structs : Structs} {ty : Ty} {text rest : List Char}

def Plain : List Char → Prop
  | [] => False
  | c :: _ => c ≠ '*' ∧ c ≠ '['

/-- The types that have a spelling, where structs go by the names they are known under. -/
inductive Spelled (structs : Structs) : Ty → Prop
  | prim (primitive : Primitive) : Spelled structs (.prim primitive)
  | void : Spelled structs .void
  | pointer {target : Ty} (spelled : Spelled structs target) : Spelled structs (.pointer target)
  | array {length : Nat} {element : Ty} (positive : 0 < length) (fits : length < 2 ^ 63)
    (spelled : Spelled structs element) (occupied : element.isVoid = false) :
    Spelled structs (.array length element)
  | struct {name : String} {fields : List (String × Ty)}
    (known : named? structs name = some (.struct name fields)) (trimmed : Trimmed name.toList)
    (plain : Plain name.toList) : Spelled structs (.struct name fields)

/-- Structs that are known under their own names. -/
def Structs.Owned (structs : Structs) : Prop :=
  ∀ name ty, structs.lookup name = some ty → ∃ fields, ty = .struct name fields

theorem length?_bounds (read : length? digits = some length) : 0 < length ∧ length < 2 ^ 63 := by
  unfold length? at read
  split at read
  · next word _ =>
    have upper := word.toInt_lt
    split at read
    · next positive =>
      have lower : (0 : Int64).toInt < word.toInt := Int64.lt_iff_toInt_lt.mp positive
      have zero : (0 : Int64).toInt = 0 := rfl
      cases read
      omega
    · cases read
  · cases read

theorem length?_toString (positive : 0 < length) (fits : length < 2 ^ 63) :
    length? (toString length).toList = some length := by
  have same : (Int64.ofNat length).toInt = length := Int64.toInt_ofNat_of_lt fits
  have above : (0 : Int64) < Int64.ofNat length := by
    rw [Int64.lt_iff_toInt_lt, same]
    exact Int.natCast_pos.mpr positive
  simp only [length?, word?_toString fits, above, if_true, same, Int.toNat_natCast]

theorem named?_spelled (owned : structs.Owned) (trimmed : Trimmed text) (plain : Plain text)
    (found : named? structs (String.ofList text) = some ty) : Spelled structs ty := by
  have whole := found
  unfold named? at found
  split at found
  · cases found
    exact .prim _
  · split at found
    · cases found
      exact .void
    · obtain ⟨fields, rfl⟩ := owned _ _ found
      exact .struct whole (by rwa [String.toList_ofList]) (by rwa [String.toList_ofList])

/-- Nothing is read but types with a spelling. -/
theorem readChars_spelled (owned : structs.Owned) (read : readChars structs text = .ok ty) :
    Spelled structs ty := by
  fun_induction readChars structs text generalizing ty with
  | case1 => cases read
  | case2 _ _ _ ih =>
    obtain ⟨dst, inner, same⟩ := bind_eq_ok.mp read
    cases same
    exact .pointer (ih inner)
  | case3 => cases read
  | case4 => cases read
  | case5 =>
    rename_i measured ih
    obtain ⟨element, inner, same⟩ := bind_eq_ok.mp read
    have bounds := length?_bounds measured
    split at same
    · cases same
    · next occupied =>
      cases same
      exact .array bounds.1 bounds.2 (ih inner) (by simpa using occupied)
  | case6 text _ empty starred bracketed found =>
    cases read
    refine named?_spelled owned (trimmed_trim text) ?_ found
    cases shape : trim text with
    | nil => exact empty shape
    | cons c rest =>
      exact ⟨fun star => starred rest (star ▸ shape), fun bracket => bracketed rest (bracket ▸ shape)⟩
  | case7 => cases read

theorem readChars_name (trimmed : Trimmed text) (plain : Plain text)
    (found : named? structs (String.ofList text) = some ty) : readChars structs text = .ok ty := by
  have same := trimmed.trim_eq
  unfold readChars
  split
  · next shape =>
    rw [← same, shape] at plain
    exact plain.elim
  · next shape =>
    rw [← same, shape] at plain
    exact absurd rfl plain.1
  · next shape =>
    rw [← same, shape] at plain
    exact absurd rfl plain.2
  · rw [same, found]

theorem readChars_pointer (trimmed : Trimmed ('*' :: rest)) (read : readChars structs rest = .ok ty) :
    readChars structs ('*' :: rest) = .ok (.pointer ty) := by
  have same := trimmed.trim_eq
  rw [readChars]
  split
  · next shape => simp [same] at shape
  · next shape =>
    cases same.symm.trans shape
    rw [read]
    rfl
  · next shape => simp [same] at shape
  · next starred _ => exact absurd same (starred rest)

theorem readChars_array (trimmed : Trimmed ('[' :: (digits ++ ']' :: rest)))
    (inner : ∀ c ∈ digits, (c != ']') = true) (measured : length? digits = some length)
    (read : readChars structs rest = .ok ty) (occupied : ty.isVoid = false) :
    readChars structs ('[' :: (digits ++ ']' :: rest)) = .ok (.array length ty) := by
  have same := trimmed.trim_eq
  have tail : (digits ++ ']' :: rest).dropWhile (· != ']') = ']' :: rest := by
    rw [List.dropWhile_append_of_pos inner]
    rfl
  have front : (digits ++ ']' :: rest).takeWhile (· != ']') = digits := by
    rw [List.takeWhile_append_of_pos inner]
    simp
  rw [readChars]
  split
  · next shape => simp [same] at shape
  · next shape => simp [same] at shape
  · next shape =>
    cases same.symm.trans shape
    split
    · next open_ => cases tail.symm.trans open_
    · next split_ =>
      cases tail.symm.trans split_
      rw [front, measured]
      simp only [read, bind, Except.bind, occupied]
      rfl
  · next bracketed => exact absurd same (bracketed _)

theorem text_array (length : Nat) (element : Ty) : (array length element).text.toList =
    '[' :: ((toString length).toList ++ ']' :: element.text.toList) := by
  simp [text, String.toList_append]

theorem Spelled.trimmed (spelled : Spelled structs ty) :
    Trimmed ty.text.toList ∧ ty.text.toList ≠ [] := by
  induction spelled with
  | prim primitive => cases primitive <;> simp [text, Primitive.name, Trimmed] <;> decide
  | void => simp [text, Trimmed]; decide
  | pointer _ ih =>
    rw [text, String.toList_append]
    exact ⟨ih.1.append ih.2 (by simp; decide), by simp⟩
  | @array length element _ _ _ _ ih =>
    have solid : ∀ c ∈ '[' :: ((toString length).toList ++ [']']), isBlank c = false := by
      intro c mem
      simp only [List.mem_cons, List.mem_append, List.not_mem_nil, or_false] at mem
      rcases mem with rfl | digit | rfl
      · rfl
      · exact isBlank_of_isDigit (isDigit_of_mem_toString digit)
      · rfl
    rw [text_array]
    exact ⟨by simpa using ih.1.append ih.2 solid, by simp⟩
  | @struct name _ _ trimmed plain =>
    refine ⟨trimmed, fun empty => ?_⟩
    rw [show name.toList = [] from empty] at plain
    exact plain

/-- A type with a spelling is read from it. -/
theorem Spelled.readChars_text (spelled : Spelled structs ty) :
    readChars structs ty.text.toList = .ok ty := by
  have trimmed := spelled.trimmed.1
  induction spelled with
  | prim primitive =>
    refine readChars_name trimmed ?_ ?_
    · cases primitive <;> simp [text, Primitive.name, Plain]
    · rw [String.ofList_toList]
      cases primitive <;> rfl
  | void => exact readChars_name trimmed (by simp [text, Plain]) rfl
  | pointer spelled ih =>
    rw [text, String.toList_append] at trimmed ⊢
    exact readChars_pointer trimmed (ih spelled.trimmed.1)
  | array positive fits spelled occupied ih =>
    rw [text_array] at trimmed ⊢
    refine readChars_array trimmed (fun c digit => ?_) (length?_toString positive fits)
      (ih spelled.trimmed.1) occupied
    have known := isDigit_of_mem_toString digit
    rw [bne_iff_ne]
    rintro rfl
    cases known
  | struct known _ plain => exact readChars_name trimmed plain (by rwa [text, String.ofList_toList])

/-- Types are read back from their texts, and no two of them share one. -/
theorem reading_inverts_spelling (structs : Structs) (owned : structs.Owned) :
    (∀ text ty, read structs text = .ok ty → read structs ty.text = .ok ty) ∧
    (∀ first second left right, read structs first = .ok left → read structs second = .ok right →
      (left.text = right.text → left = right) ∧ (left.same right = true ↔ left = right)) := by
  have back : ∀ text ty, read structs text = .ok ty → read structs ty.text = .ok ty :=
    fun _ _ ran => (readChars_spelled owned ran).readChars_text
  refine ⟨back, fun first second left right one two => ?_⟩
  have injective : left.text = right.text → left = right := by
    intro same
    have again := back first left one
    rw [same, back second right two] at again
    exact (Except.ok.inj again).symm
  refine ⟨injective, ?_⟩
  rw [same, beq_iff_eq]
  exact ⟨injective, congrArg text⟩

/-- Blanks, a sign and leading zeros are not part of the spelling. -/
theorem reading_inverts_spelling_padded :
    let record := struct "S" [("a", .prim .i64)]
    let found := pointer (array 3 record)
    Structs.Owned [("S", record)] ∧ read [("S", record)] " * [+03] S " = .ok found ∧
      found.text = "*[3]S" ∧ read [("S", record)] found.text = .ok found := by
  have owned : Structs.Owned [("S", struct "S" [("a", .prim .i64)])] := by
    intro name ty found
    rw [List.lookup_cons] at found
    split at found
    · next same =>
      cases found
      exact ⟨_, by rw [beq_iff_eq.mp same]⟩
    · cases found
  have ran : read [("S", struct "S" [("a", .prim .i64)])] " * [+03] S " =
      .ok (pointer (array 3 (struct "S" [("a", .prim .i64)]))) := by
    with_unfolding_all rfl
  exact ⟨owned, ran, by decide, (reading_inverts_spelling _ owned).1 _ _ ran⟩

end Ty
end Nasm64
