import Mathlib.Data.List.Chain
import Nasm64.Text.Wrap

/-! Lines of bounded width. Main statement: wrapping keeps the words of a text and their order, makes
no line empty or longer than it has to be, and starts a line only for a word that did not fit. -/
namespace Nasm64.Text

/-- Letters that were collected so far stand in front of the first piece. -/
theorem wordsFrom_eq (letters text : List Char) : wordsFrom letters text =
    (List.splitOnPPrepend isBlank text letters).filter fun word => !word.isEmpty := by
  induction text generalizing letters with
  | nil => cases letters <;> simp [wordsFrom, closeWord]
  | cons c rest ih =>
    cases blank : isBlank c with
    | true =>
      simp only [wordsFrom, blank, if_true, ih, List.splitOnPPrepend_cons_pos blank]
      cases letters <;> simp [closeWord]
    | false =>
      simp only [wordsFrom, blank, Bool.false_eq_true, if_false, ih,
        List.splitOnPPrepend_cons_neg blank]

/-- What is between the blanks of a text, without the empty pieces. -/
def pieces (text : List Char) : List (List Char) :=
  (text.splitOnP isBlank).filter fun piece => !piece.isEmpty

theorem words_eq_pieces : words = pieces := by
  funext text
  rw [words, wordsFrom_eq, List.splitOnPPrepend_nil_right, pieces]

/-- Letters without a blank among them. -/
structure IsWord (text : String) : Prop where
  some : text ≠ ""
  solid : ∀ c ∈ text.toList, isBlank c = false

theorem IsWord.words (word : IsWord text) : words text.toList = [text.toList] := by
  rw [words_eq_pieces, pieces, List.splitOnP_eq_singleton word.solid]
  simp [word.some]

theorem words_append_blank (first second : List Char) :
    words (first ++ ' ' :: second) = words first ++ words second := by
  have blank : isBlank ' ' = true := by decide
  rw [words_eq_pieces, pieces, List.splitOnP_append_cons first second blank, List.filter_append]
  rfl

theorem isWord_of_mem {letters text : List Char} (solid : ∀ c ∈ letters, isBlank c = false)
    (mem : word ∈ wordsFrom letters text) : IsWord (String.ofList word) := by
  induction text generalizing letters with
  | nil =>
    cases letters with
    | nil => cases mem
    | cons c rest =>
      simp [wordsFrom, closeWord] at mem
      subst mem
      exact ⟨by simp, by simpa [or_comm] using solid⟩
  | cons c rest ih =>
    cases blank : isBlank c with
    | false =>
      simp only [wordsFrom, blank, Bool.false_eq_true, if_false] at mem
      exact ih (by simpa [blank] using solid) mem
    | true =>
      simp only [wordsFrom, blank, if_true] at mem
      cases letters with
      | nil => exact ih (by simp) mem
      | cons first others =>
        simp [closeWord] at mem
        rcases mem with rfl | mem
        · exact ⟨by simp, by simpa [or_comm] using solid⟩
        · exact ih (by simp) mem

/-- A line is not empty, and is longer than allowed only if it is a single word. -/
def Fits (width : Nat) (line : String) : Prop :=
  line ≠ "" ∧ (line.utf8ByteSize ≤ width ∨ words line.toList = [line.toList])

/-- A line starts with a word that the line before it has no room for. -/
def Crowds (width : Nat) (line next : String) : Prop :=
  ∃ word, (words next.toList).head? = some word ∧
    width < line.utf8ByteSize + 1 + (String.ofList word).utf8ByteSize

/-- Lines with the given words, each of which goes on as long as the next word fits. -/
structure Wrapped (width : Nat) (lines : List String) (content : List (List Char)) : Prop where
  content : lines.flatMap (fun line => words line.toList) = content
  fits : ∀ line ∈ lines, Fits width line
  greedy : lines.IsChain (Crowds width)

/-- The line that is being filled comes first, with the words that it has. -/
theorem fill_wrapped (current : String) (first : List Char) (filled : Fits width current)
    (begun : (words current.toList).head? = some first) (rest : List String)
    (solid : ∀ word ∈ rest, IsWord word) :
    Wrapped width (fill width current rest) (words current.toList ++ rest.map String.toList) ∧
      ∃ line ∈ (fill width current rest).head?, (words line.toList).head? = some first := by
  have started := filled.1
  induction rest generalizing current first with
  | nil =>
    have ended : fill width current [] = [current] := by simp [fill, started]
    rw [ended]
    exact ⟨⟨by simp, by simpa using filled, .singleton _⟩, current, rfl, begun⟩
  | cons word rest ih =>
    have next := solid word (by simp)
    have others : ∀ word ∈ rest, IsWord word := fun word mem => solid word (by simp [mem])
    by_cases full : width < current.utf8ByteSize + word.utf8ByteSize + 1
    · have broken : fill width current (word :: rest) = current :: fill width word rest := by
        simp [fill, started, full]
      obtain ⟨wrapped, line, head, starts⟩ := ih word word.toList ⟨next.some, .inr next.words⟩
        (by simp [next.words]) others next.some
      have crowds : Crowds width current line := ⟨_, starts, by rw [String.ofList_toList]; omega⟩
      rw [broken]
      refine ⟨⟨?_, ?_, ?_⟩, current, rfl, begun⟩
      · rw [List.flatMap_cons, wrapped.content, next.words]
        rfl
      · simpa using ⟨filled, wrapped.fits⟩
      · refine List.isChain_cons.mpr ⟨fun next after => ?_, wrapped.greedy⟩
        rwa [Option.mem_unique after head]
    · have joined : fill width current (word :: rest) = fill width (current ++ " " ++ word) rest := by
        simp [fill, started, full]
      have both : words (current ++ " " ++ word).toList = words current.toList ++ [word.toList] := by
        rw [← next.words, ← words_append_blank]
        simp
      have size : (current ++ " " ++ word).utf8ByteSize =
          current.utf8ByteSize + 1 + word.utf8ByteSize := by
        rw [String.utf8ByteSize_append, String.utf8ByteSize_append]
        rfl
      obtain ⟨wrapped, lead⟩ := ih (current ++ " " ++ word) first ⟨by simp, .inl (by omega)⟩
        (by rw [both, List.head?_append, begun]; rfl) others (by simp)
      rw [joined]
      refine ⟨?_, lead⟩
      rwa [both, List.append_assoc] at wrapped

/-- Wrapped at a width, a text keeps its words in their order, on lines that are not empty. No line
is wider, unless it is a single word, and none starts with a word that the one before has room for. -/
theorem wrapping_lossless_and_greedy (text : String) {width : Nat} (positive : 0 < width) :
    (wrap width text).flatMap (fun line => pieces line.toList) = pieces text.toList ∧
      (∀ line ∈ wrap width text, line ≠ "" ∧
        (line.utf8ByteSize ≤ width ∨ pieces line.toList = [line.toList])) ∧
      (wrap width text).IsChain fun line next => ∃ word, (pieces next.toList).head? = some word ∧
        width < line.utf8ByteSize + 1 + (String.ofList word).utf8ByteSize := by
  rw [← words_eq_pieces]
  have solid : ∀ word ∈ words text.toList, IsWord (String.ofList word) :=
    fun word mem => isWord_of_mem (by simp) mem
  have filling : wrap width text = fill width "" ((words text.toList).map String.ofList) := by
    simp [wrap, Nat.ne_of_gt positive]
  rw [filling]
  cases given : words text.toList with
  | nil => simp [fill]
  | cons word rest =>
    rw [given] at solid
    have first := solid word (by simp)
    have begun : Fits width (String.ofList word) := ⟨first.some, .inr first.words⟩
    obtain ⟨wrapped, _⟩ := fill_wrapped (String.ofList word) word begun
      (by rw [first.words, String.toList_ofList, List.head?_cons]) (rest.map String.ofList)
      (by simpa using fun word mem => solid word (by simp [mem]))
    have opened : fill width "" ((word :: rest).map String.ofList) =
        fill width (String.ofList word) (rest.map String.ofList) := by simp [fill]
    rw [opened]
    refine ⟨?_, wrapped.fits, wrapped.greedy⟩
    rw [wrapped.content, first.words]
    simp

/-- A word that is wider than the line stands alone. -/
theorem wrapping_around_long_word :
    wrap 5 " a bc  defghij k" = ["a bc", "defghij", "k"] ∧
      ["a bc", "defghij", "k"].flatMap (fun line => pieces line.toList) =
        pieces " a bc  defghij k".toList := by
  have lines : wrap 5 " a bc  defghij k" = ["a bc", "defghij", "k"] := by decide +kernel
  exact ⟨lines, lines ▸ (wrapping_lossless_and_greedy " a bc  defghij k" (by decide)).1⟩

end Nasm64.Text
