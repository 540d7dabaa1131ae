import Nasm64.Proofs.Echo.Statement

/-! Lines of text. Codes that differ in their comments only have the same text, up to lines that are
comments. -/
namespace Nasm64

namespace Text

/-- A comment stands on a line of its own, behind four blanks. -/
def isComment (line : List Char) : Bool := "    ;".toList.isPrefixOf line

def plainLines (letters : List Char) : List (List Char) :=
  (letters.splitOn '\n').filter fun line => !isComment line

theorem plainLines_append (before after : List Char) :
    plainLines (before ++ '\n' :: after) = plainLines before ++ plainLines after := by
  rw [plainLines, List.splitOn_append_cons_self, List.filter_append]
  rfl

def Ends (text : String) : Prop := ∃ start, text.toList = start ++ ['\n']

theorem Ends.append (ends : Ends second) : Ends (first ++ second) := by
  obtain ⟨start, same⟩ := ends
  refine ⟨first.toList ++ start, ?_⟩
  rw [String.toList_append, same, List.append_assoc]

/-- What follows the end of a line does not depend on what comes before it. -/
theorem Ends.plainLines_congr (ends : Ends text) (same : plainLines rest = plainLines other) :
    plainLines (text.toList ++ rest) = plainLines (text.toList ++ other) := by
  obtain ⟨start, spelled⟩ := ends
  rw [spelled, List.append_assoc, List.append_assoc]
  show plainLines (start ++ '\n' :: rest) = plainLines (start ++ '\n' :: other)
  rw [plainLines_append, plainLines_append, same]

end Text

open Text

theorem Line.text_ends (line : Line) : Ends line.text := by
  have newline : Ends "\n" := ⟨[], rfl⟩
  cases line with
  | label name => exact Ends.append ⟨[':'], rfl⟩
  | _ => exact newline.append

theorem Line.plainLines_comment {text : String} (single : '\n' ∉ text.toList) (rest : List Char) :
    plainLines ((Line.comment text).text.toList ++ rest) = plainLines rest := by
  have spelled : (Line.comment text).text.toList ++ rest = ("    ; ".toList ++ text.toList) ++ '\n' :: rest := by
    simp [Line.text, String.toList_append]
  have whole : ("    ; ".toList ++ text.toList).splitOn '\n' = ["    ; ".toList ++ text.toList] := by
    apply List.splitOn_eq_singleton
    rw [List.mem_append]
    rintro (blank | inside)
    · exact absurd blank (by decide)
    · exact single inside
  rw [spelled, plainLines_append, plainLines, whole]
  rfl

namespace Code

theorem text_cons (line : Line) (code : Code) : text (line :: code) = line.text ++ text code := by
  unfold text
  rw [List.map_cons, String.join_cons]

/-- Codes that differ in their comments only have the same plain lines, whatever follows. -/
theorem SameButComments.plainLines_congr {code other : Code} (same : SameButComments code other)
    (after : plainLines rest = plainLines following) : plainLines (code.text.toList ++ rest) =
    plainLines (other.text.toList ++ following) := by
  induction same with
  | nil => exact after
  | line line _ ih =>
    rw [text_cons, text_cons, String.toList_append, String.toList_append, List.append_assoc,
      List.append_assoc]
    exact line.text_ends.plainLines_congr ih
  | left single _ ih =>
    rw [text_cons, String.toList_append, List.append_assoc, Line.plainLines_comment single]
    exact ih
  | right single _ ih =>
    rw [text_cons, String.toList_append, List.append_assoc, Line.plainLines_comment single]
    exact ih

end Code
end Nasm64
