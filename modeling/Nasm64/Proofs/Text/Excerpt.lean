import Mathlib.Tactic.ByContra
import Nasm64.Diagnostic
import Nasm64.Document.Tree

/-! Excerpts of the source below a message.

Lines and columns are counted from one, and a position of zero has no excerpt, nor has a line behind
the last one. Negative numbers are not told apart from either, and there the excerpt has no text. -/
namespace Nasm64.Diagnostic.Terminal

/-- The lines of the file that a location is in, where there is such a file. -/
def lines? (terminal : Terminal) (location : Location) : Option (List String) :=
  (terminal.file? location.file).map fun file => file.content.splitOn "\n"

/-- The first line of a message. -/
def opening (terminal : Terminal) (severity : Severity) (location : Location) (message : String) : String :=
  ((terminal.file? location.file).map SourceFile.name).getD "unknown" ++ ":" ++
    toString location.position.line ++ ":" ++ toString location.position.column ++ ": " ++
    terminal.paint severity.colour (severity.name ++ ":") ++ " " ++ message ++ "\n"

/-- The lines below it: the source line, and a caret in the column that is followed by as many tildes
as the length leaves. -/
def marked (terminal : Terminal) (position : Position) (line : String) : String :=
  "  " ++ line ++ "\n  " ++ String.ofList (List.replicate (position.column - 1).toNat ' ') ++
    terminal.paint "32" (caret position.length) ++ "\n"

/-- A position that no text can be made for: a negative line, or a negative column in a line that
there is. -/
def Unprintable (lines : List String) (position : Position) : Prop :=
  position.column ≠ 0 ∧
    (position.line < 0 ∨ 0 < position.line ∧ position.line ≤ lines.length ∧ position.column < 0)

/-- A position in a line that there is. -/
def Within (lines : List String) (position : Position) : Prop :=
  0 < position.line ∧ position.line ≤ lines.length ∧ 0 < position.column

section

variable {terminal : Terminal} {location : Location}

theorem excerpt_of_unknown (unknown : terminal.lines? location = none) : terminal.excerpt location = .ok "" := by
  rw [excerpt, Option.map_eq_none_iff.mp unknown]

variable {lines : List String} (known : terminal.lines? location = some lines)

include known

theorem excerpt_of_positive (line : 0 < location.position.line) (column : location.position.column ≠ 0) :
    terminal.excerpt location =
      match lines[(location.position.line - 1).toNat]? with
      | none => .ok ""
      | some line =>
        if location.position.column < 0 then .error .negativeColumn
        else .ok (terminal.marked location.position line) := by
  obtain ⟨file, found, rfl⟩ := Option.map_eq_some_iff.mp known
  have stated : ¬ (location.position.line == 0 || location.position.column == 0) = true := by
    simpa using ⟨Int.ne_of_gt line, column⟩
  have above : ¬ location.position.line < 0 := by omega
  simp only [excerpt, found, if_neg stated, if_neg above]
  rfl

theorem excerpt_of_unprintable (unprintable : Unprintable lines location.position) :
    ∃ crash, terminal.excerpt location = .error crash := by
  obtain ⟨column, negative | ⟨positive, inside, left⟩⟩ := unprintable
  · obtain ⟨file, found, rfl⟩ := Option.map_eq_some_iff.mp known
    refine ⟨.negativeLine, ?_⟩
    simp [excerpt, found, Int.ne_of_lt negative, column, negative]
  · have bound : (location.position.line - 1).toNat < lines.length := by omega
    refine ⟨.negativeColumn, ?_⟩
    rw [excerpt_of_positive known positive column, List.getElem?_eq_getElem bound]
    exact if_pos left

theorem excerpt_of_within (within : Within lines location.position) :
    ∃ line, lines[(location.position.line - 1).toNat]? = some line ∧
      terminal.excerpt location = .ok (terminal.marked location.position line) := by
  obtain ⟨positive, inside, right⟩ := within
  have bound : (location.position.line - 1).toNat < lines.length := by omega
  refine ⟨_, List.getElem?_eq_getElem bound, ?_⟩
  rw [excerpt_of_positive known positive (Int.ne_of_gt right), List.getElem?_eq_getElem bound]
  exact if_neg (by omega)

/-- Everywhere else nothing is shown. -/
theorem excerpt_of_outside (printable : ¬ Unprintable lines location.position)
    (outside : ¬ Within lines location.position) : terminal.excerpt location = .ok "" := by
  simp only [Unprintable, Within] at printable outside
  by_cases unstated : location.position.line = 0 ∨ location.position.column = 0
  · obtain ⟨file, found, rfl⟩ := Option.map_eq_some_iff.mp known
    simp [excerpt, found, unstated]
  · have behind : lines.length ≤ (location.position.line - 1).toNat := by omega
    rw [excerpt_of_positive known (by omega) (by omega), List.getElem?_eq_none behind]

end

theorem report_eq (terminal : Terminal) (severity : Severity) (location : Location) (message : String) :
    terminal.report severity location message =
      (terminal.excerpt location).map (terminal.opening severity location message ++ ·) := by
  unfold report
  cases terminal.excerpt location <;> rfl

/-- A report is printed unless its location is in a file and there in no printable place. What is
printed is the message, with the line and its caret below it if the position is within the file. -/
theorem report_outcome (terminal : Terminal) (severity : Severity) (location : Location) (message : String) :
    let report := terminal.report severity location message
    let opening := terminal.opening severity location message
    match terminal.lines? location with
    | none => report = .ok opening
    | some lines =>
      ((∃ crash, report = .error crash) ↔ Unprintable lines location.position) ∧
      (Within lines location.position → ∃ line, lines[(location.position.line - 1).toNat]? = some line ∧
        report = .ok (opening ++ terminal.marked location.position line)) ∧
      (¬ Unprintable lines location.position → ¬ Within lines location.position → report = .ok opening) := by
  dsimp only
  rw [report_eq]
  split
  · next unknown => simp [excerpt_of_unknown unknown, Except.map]
  · next lines known =>
    have within (inside : Within lines location.position) := excerpt_of_within known inside
    have outside := excerpt_of_outside known
    refine ⟨⟨?_, fun unprintable => ?_⟩, fun inside => ?_, fun printable apart => ?_⟩
    · rintro ⟨crash, crashes⟩
      by_contra printable
      by_cases inside : Within lines location.position
      · obtain ⟨line, _, shown⟩ := within inside
        rw [shown] at crashes
        cases crashes
      · rw [outside printable inside] at crashes
        cases crashes
    · obtain ⟨crash, crashes⟩ := excerpt_of_unprintable known unprintable
      exact ⟨crash, by rw [crashes]; rfl⟩
    · obtain ⟨line, there, shown⟩ := within inside
      exact ⟨line, there, by rw [shown]; rfl⟩
    · simp [outside printable apart, Except.map]

/-- A negative line, and a negative column of a line that there is, as a document may give them. -/
theorem report_crashes :
    let terminal : Terminal := { files := [{ name := "main.x", content := "x" }] }
    terminal.warning {} .extra { position := Document.positionOf [-1, 1, 0] } "odd" = .error .negativeLine ∧
    terminal.warning {} .extra { position := Document.positionOf [1, -1, 0] } "odd" =
      .error .negativeColumn := by
  have lines : "x".splitOn "\n" = ["x"] := by
    rw [String.splitOn, if_neg (by decide), String.splitOnAux, if_neg (by decide),
      if_neg (by decide), String.splitOnAux, if_pos (by decide)]
    rfl
  refine ⟨rfl, ?_⟩
  simp [warning, report, excerpt, file?, Document.positionOf, lines, WarningKind.onByDefault, Functor.map,
    Except.map]

end Nasm64.Diagnostic.Terminal
