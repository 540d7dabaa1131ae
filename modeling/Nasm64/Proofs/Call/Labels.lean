import Nasm64.Lower.Program
import Nasm64.Proofs.Call.Order

/-! The labels of declared methods. Signatures of one name are told apart when they are declared, and
those of different names share a label only if one name continues the other. -/
namespace Nasm64

namespace Signature

variable {first second : Signature}

/-- A name starts with that of another signature and an underscore. For methods defined elsewhere,
which keep their plain name, this is so after the dot that starts a label. -/
def Continues (first second : Signature) : Prop :=
  ∃ rest, first.name = second.name ++ "_" ++ rest ∨
    first.isExternal = true ∧ first.name = "." ++ second.name ++ "_" ++ rest

def isPlain (signature : Signature) : Bool := signature.isExternal || signature.name == "main"

theorem label_of_plain (plain : first.isPlain = true) : first.label = first.name := if_pos plain

theorem label_of_mangled (mangled : first.isPlain = false) :
    ∃ rest, first.label = "." ++ first.name ++ "_" ++ rest := by
  unfold isPlain at mangled
  simp only [label, mangled, Bool.false_eq_true, if_false, String.append_assoc, String.append_right_inj]
  exact ⟨_, rfl⟩

/-- Of two names that an underscore follows in one text, the longer one continues the other. -/
theorem name_continues (differ : left ≠ right) (shorter : left.toList.length ≤ right.toList.length)
    (same : left ++ "_" ++ leftRest = right ++ "_" ++ rightRest) :
    ∃ rest, right = left ++ "_" ++ rest := by
  have texts := congrArg String.toList same
  simp only [String.toList_append] at texts
  have inside : right.toList <+: left.toList ++ "_".toList ++ leftRest.toList :=
    ⟨"_".toList ++ rightRest.toList, by rw [texts, List.append_assoc]⟩
  have strictly : left.toList.length ≠ right.toList.length := by
    intro equal
    have first : left.toList <+: right.toList ++ "_".toList ++ rightRest.toList :=
      ⟨"_".toList ++ leftRest.toList, by rw [← texts, List.append_assoc]⟩
    have second : right.toList <+: right.toList ++ "_".toList ++ rightRest.toList :=
      ⟨"_".toList ++ rightRest.toList, by rw [List.append_assoc]⟩
    exact differ (String.toList_injective
      ((List.prefix_of_prefix_length_le first second shorter).eq_of_length equal))
  have starts : left.toList ++ "_".toList <+: right.toList := by
    refine List.prefix_of_prefix_length_le (List.prefix_append _ leftRest.toList) inside ?_
    have one : "_".toList.length = 1 := rfl
    rw [List.length_append, one]
    omega
  obtain ⟨rest, joined⟩ := starts
  refine ⟨String.ofList rest, String.toList_injective ?_⟩
  simpa only [String.toList_append, String.toList_ofList] using joined.symm

theorem continues_of_label_eq (differ : first.name ≠ second.name)
    (same : first.label = second.label) : first.Continues second ∨ second.Continues first := by
  have external : ∀ {plain mangled : Signature}, plain.isPlain = true → mangled.isPlain = false →
      plain.label = mangled.label → plain.Continues mangled := by
    intro plain mangled kept spelled equal
    obtain ⟨rest, text⟩ := label_of_mangled spelled
    rw [label_of_plain kept, text] at equal
    refine ⟨rest, .inr ⟨?_, equal⟩⟩
    rcases Bool.or_eq_true_iff.mp kept with outside | entry
    · exact outside
    · have dotted := congrArg (fun name => name.toList.head?) ((beq_iff_eq.mp entry).symm.trans equal)
      simp [String.toList_append] at dotted
  cases firstPlain : first.isPlain <;> cases secondPlain : second.isPlain
  · obtain ⟨firstRest, firstText⟩ := label_of_mangled firstPlain
    obtain ⟨secondRest, secondText⟩ := label_of_mangled secondPlain
    have texts : first.name ++ "_" ++ firstRest = second.name ++ "_" ++ secondRest := by
      simpa only [firstText, secondText, String.append_assoc, String.append_right_inj] using same
    rcases Nat.le_total first.name.toList.length second.name.toList.length with shorter | shorter
    · obtain ⟨rest, continued⟩ := name_continues differ shorter texts
      exact .inr ⟨rest, .inl continued⟩
    · obtain ⟨rest, continued⟩ := name_continues differ.symm shorter texts.symm
      exact .inl ⟨rest, .inl continued⟩
  · exact .inr (external secondPlain firstPlain same.symm)
  · exact .inl (external firstPlain secondPlain same)
  · rw [label_of_plain firstPlain, label_of_plain secondPlain] at same
    exact absurd same differ

end Signature

namespace SymbolTable

/-- Signatures that share a label have names of which one continues the other. -/
def IsApart (table : SymbolTable) : Prop :=
  table.signatures.Pairwise fun first second => first.label = second.label →
    first.Continues second ∨ second.Continues first

theorem IsConsistent.isApart {table : SymbolTable} (consistent : table.IsConsistent) :
    table.IsApart := by
  refine List.Pairwise.imp (fun {first second} coexists same => ?_) consistent
  by_cases named : first.name = second.name
  · exact absurd same (coexists named).2.2
  · exact Signature.continues_of_label_eq named same

end SymbolTable

namespace Program

theorem declareAll_eq_ok {methods : List Method} {table next : SymbolTable}
    (consistent : table.IsConsistent) (declared : declareAll table methods = .ok next) :
    next.IsConsistent ∧ next.signatures = table.signatures ++ methods.map Method.signature := by
  induction methods generalizing table with
  | nil =>
    cases declared
    exact ⟨consistent, (List.append_nil _).symm⟩
  | cons method rest ih =>
    unfold declareAll at declared
    split at declared
    · rename_i mid accepted
      obtain ⟨kept, signatures⟩ := ih (consistent.declare accepted) declared
      refine ⟨kept, ?_⟩
      rw [signatures, (consistent.declare_eq_ok_iff.mp accepted).1]
      simp
    · cases declared

end Program

/-- Whatever is declared in which order, accepted signatures of one name have different labels, and
those of different names do unless one name is another and an underscore in front of something. So it
is for the methods of a program. -/
theorem declared_labels_apart (sequence : List Signature) (program : Program) :
    (SymbolTable.declaring {} sequence).IsApart ∧
    ∀ table : SymbolTable, program.symbolTable = .ok table →
      table.signatures = (program.externals ++ program.methods).map Method.signature ∧
        table.IsApart := by
  have empty : ({} : SymbolTable).IsConsistent := List.Pairwise.nil
  refine ⟨(empty.declaring sequence).isApart, fun table declared => ?_⟩
  obtain ⟨consistent, signatures⟩ := Program.declareAll_eq_ok empty declared
  exact ⟨signatures, consistent.isApart⟩

/-- Two methods of different names with one label, of which neither is refused. -/
theorem declared_labels_collide :
    let pair : List Signature :=
      [⟨"f", [.prim .i64, .prim .i64], .void, false, false⟩, ⟨"f_i64", [.prim .i64], .void, false, false⟩]
    (SymbolTable.declaring {} pair).signatures.map Signature.label =
      [".f_i64_i64~void", ".f_i64_i64~void"] := by
  decide +kernel

end Nasm64
