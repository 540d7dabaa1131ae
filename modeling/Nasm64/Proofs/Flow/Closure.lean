import Nasm64.Proofs.Call.Labels
import Nasm64.Proofs.Soundness.Program

/-! Labels are closed. Those made for a method are defined once in the whole text, jumps stay among those
of their own method, and what is read from a label is defined once in the data, unless a struct has that
label for its name. -/
namespace Nasm64

open Lower Attempt

def Code.targets (code : Code) : List String := code.filterMap Line.target?

theorem surround_targets (label exit : String) (size : Int64) (saved : List SavedSlot) (body : Code) :
    Code.targets (surround label exit size saved body) = body.targets := by
  have around : (entryCode label size saved ++ exitCode exit saved).filterMap Line.target? = [] :=
    List.filterMap_eq_nil_iff.mpr fun _ => target?_around
  rw [List.filterMap_append, List.append_eq_nil_iff] at around
  simp [surround_eq, Code.targets, around.1, around.2]

/-- Letters, digits and underscores, without a digit in front. -/
def isIdentifier (name : String) : Bool :=
  match name.toList with
  | [] => false
  | first :: rest =>
    (first.isAlpha || first == '_') && rest.all fun letter => letter.isAlphanum || letter == '_'

namespace Method

/-- The labels made for the method at an index: one for its end, and one for each number. -/
def innerLabels (method : Method) (index : Nat) : List String :=
  (".L" ++ toString index ++ "_ret") ::
    (List.range' 1 (Stmt.labelCounts (method.body.getD []))).map fun number =>
      ".L" ++ toString index ++ "_" ++ toString number

variable {method other : Method} {index : Nat} {label : String}

theorem lower_labels {code : Code}
    (run : Yields method.lower ⟨index, method.signature, table, cfg⟩ {} code next) :
    code.labels.Perm (method.signature.label :: method.innerLabels index) ∧
      code.targets ⊆ method.innerLabels index := by
  obtain ⟨size, saved, pars, skeleton, frame, after, drawn, rfl, unmarked, steps, listed, numbered,
    closed⟩ := lower_traces run
  have inner := numbered
  refine ⟨listed ▸ inner.cons _, fun tgt member => numbered.mem_iff.mp ?_⟩
  have silent : pars.filterMap Line.target? = [] :=
    List.filterMap_eq_nil_iff.mpr fun line mem => Line.target?_of_plain (.inr (unmarked line mem))
  have own : skeleton.code.filterMap Line.target? = skeleton.targets :=
    Skeleton.code_filterMap steps (fun plain => Line.target?_of_plain (.inr plain)) (fun _ _ => rfl)
      fun _ => rfl
  rw [surround_targets, Code.targets, List.filterMap_append, silent, own, List.nil_append] at member
  exact List.mem_append.mpr ((closed tgt member).imp_right List.mem_singleton.mpr)

theorem mem_innerLabels (mem : label ∈ method.innerLabels index) :
    ∃ ending, label = ".L" ++ toString index ++ ("_" ++ ending) ∧ '~' ∉ ("_" ++ ending).toList := by
  rcases List.mem_cons.mp mem with rfl | mem
  · exact ⟨"ret", rfl, by decide⟩
  · obtain ⟨number, _, rfl⟩ := List.mem_map.mp mem
    refine ⟨toString number, String.append_assoc .., fun inside => ?_⟩
    rw [String.toList_append, List.mem_append] at inside
    rcases inside with inside | inside
    · exact absurd inside (by decide)
    · exact absurd (isDigit_of_mem_toString inside) (by decide)

/-- The index tells the labels of methods apart. -/
theorem innerLabels_disjoint (differ : first ≠ second) :
    (method.innerLabels first).Disjoint (other.innerLabels second) := by
  intro label here there
  obtain ⟨ending, rfl, _⟩ := mem_innerLabels here
  obtain ⟨rest, same, _⟩ := mem_innerLabels there
  have texts : toString first ++ "_" ++ ending = toString second ++ "_" ++ rest := by
    simpa only [String.append_assoc, String.append_right_inj] using same
  have apart : toString first ≠ toString second := fun equal => differ (eq_of_toString_eq equal)
  have undivided {number : Nat} {left right : String} : toString number ≠ left ++ "_" ++ right := by
    intro divided
    have inside : '_' ∈ (toString number).toList := by simp [divided]
    exact absurd (isDigit_of_mem_toString inside) (by decide)
  rcases Nat.le_total (toString first).toList.length (toString second).toList.length with short | short
  · obtain ⟨_, divided⟩ := Signature.name_continues apart short texts
    exact undivided divided
  · obtain ⟨_, divided⟩ := Signature.name_continues apart.symm short texts.symm
    exact undivided divided

/-- No method has a label that is made for one, if its name is plain. -/
theorem label_not_inner (plain : isIdentifier method.name = true) :
    method.signature.label ∉ other.innerLabels index := by
  intro member
  obtain ⟨ending, same, untilded⟩ := mem_innerLabels member
  cases external : method.signature.isExternal with
  | false =>
    have spelled : method.signature.label = ".L" ++ toString (index : Int) ++ ("_" ++ ending) := same
    exact Signature.label_ne_local external untilded spelled
  | true =>
    rw [Signature.label_of_plain (by simp [Signature.isPlain, external])] at same
    have letters := congrArg String.toList same
    simp only [signature, String.toList_append] at letters
    rw [isIdentifier, letters] at plain
    cases plain

end Method

/-- The labels that operands of code are relative to. -/
def Code.references (code : Code) : List String :=
  code.flatMap fun line => line.operands.filterMap Operand.label?

namespace Assembly

def textLabels (assembly : Assembly) : List String := assembly.methods.flatMap Code.labels

/-- The labels that the declaration of a struct defines: its name, its size and the places of its fields,
which are local to the name. -/
def structLabels (ty : Ty) : List String :=
  ty.name :: (ty.name ++ "_size") ::
    (Data.reservations ty).filterMap fun room => room.field.map (ty.name ++ "." ++ ·)

/-- The labels that the data defines: those of structs, and those of constants. -/
def dataLabels (assembly : Assembly) : List String :=
  assembly.structs.flatMap structLabels ++ assembly.data.labels

end Assembly

theorem Text.mem_hexDigits (mem : letter ∈ hexDigits width value) : letter ∈ "0123456789abcdef".toList := by
  have digit : ∀ number : Fin 16, Nat.digitChar number ∈ "0123456789abcdef".toList := by decide
  induction width generalizing value with
  | zero => cases mem
  | succ width ih =>
    rcases List.mem_append.mp mem with earlier | last
    · exact ih earlier
    · rw [List.mem_singleton.mp last]
      exact digit ⟨value % 16, Nat.mod_lt _ (by decide)⟩

/-- The label of a constant has neither a dot nor the letter z, and so is not local to a struct and not
the size of one. -/
theorem DataSection.IsHash.mem_letters {label : String} (hash : IsHash label) (mem : letter ∈ label.toList) :
    letter ∈ "strflit_0123456789abcdef".toList := by
  obtain ⟨kind, listed, bytes, rfl⟩ := hash
  have front : ∀ kind ∈ ["str", "flt", "lit"], kind.toList ⊆ "strflit_0123456789abcdef".toList := by decide
  have back : "0123456789abcdef".toList ⊆ "strflit_0123456789abcdef".toList := by decide
  simp only [hashLabel, Text.hex, String.toList_append, String.toList_ofList, List.mem_append] at mem
  rcases mem with (kindly | line) | digit
  · exact front kind listed kindly
  · exact (show "_".toList ⊆ _ by decide) line
  · exact back (Text.mem_hexDigits digit)

/-- Among the labels of structs, only the names can be those of constants. -/
theorem Assembly.count_structLabels (hash : DataSection.IsHash label) (structs : List Ty) :
    (structs.flatMap structLabels).count label = (structs.map Ty.name).count label := by
  have sized (name : String) : name ++ "_size" ≠ label := by
    rintro rfl
    exact absurd (hash.mem_letters (show 'z' ∈ (name ++ "_size").toList by simp)) (by decide)
  have placed (name field : String) : name ++ "." ++ field ≠ label := by
    rintro rfl
    exact absurd (hash.mem_letters (show '.' ∈ (name ++ "." ++ field).toList by simp)) (by decide)
  induction structs with
  | nil => rfl
  | cons ty rest ih =>
    have apart : label ∉ (Data.reservations ty).filterMap fun room => room.field.map (ty.name ++ "." ++ ·) := by
      intro mem
      obtain ⟨room, _, named⟩ := List.mem_filterMap.mp mem
      obtain ⟨field, _, same⟩ := Option.map_eq_some_iff.mp named
      exact placed ty.name field same
    rw [List.flatMap_cons, List.count_append, ih, structLabels, List.map_cons, List.count_cons,
      List.count_cons, List.count_cons, List.count_eq_zero_of_not_mem apart]
    simp [sized, Nat.add_comm]

namespace Program

def innerLabels (program : Program) : List String :=
  program.methods.zipIdx.flatMap fun job => job.1.innerLabels job.2

variable {program : Program} {cfg : Settings} {asm : Assembly}

theorem innerLabels_nodup : program.innerLabels.Nodup := by
  refine List.nodup_flatMap.mpr ⟨fun job _ => (⟨job.2, job.1.signature, {}, none⟩ : Env).innerLabels_nodup, ?_⟩
  have indices : (program.methods.zipIdx.map Prod.snd).Nodup := by
    rw [List.zipIdx_map_snd]
    exact List.nodup_range'
  exact (List.pairwise_map.mp indices).imp fun differ => Method.innerLabels_disjoint differ

theorem textLabels_perm (generated : program.generate cfg = .ok asm) :
    asm.textLabels.Perm (program.methods.map (fun method => method.signature.label) ++
      program.innerLabels) := by
  obtain ⟨table, entry, outputs, _, lowered, _, methods, _, merged⟩ := generate_eq_ok generated
  have each : List.Forall₂ (fun (job : Method × Nat) output => (Code.labels output.code).Perm
      (job.1.signature.label :: job.1.innerLabels job.2)) program.methods.zipIdx outputs := by
    refine (lowerMethods_eq_ok lowered).imp fun job output made => ?_
    obtain ⟨frame, run⟩ := Method.yields_of_generate made
    exact (Method.lower_labels run).1
  have names : program.methods.map (fun method => method.signature.label) =
      program.methods.zipIdx.map fun job => job.1.signature.label := by
    conv_lhs => rw [← List.zipIdx_map_fst 0 program.methods, List.map_map]
    rfl
  rw [Assembly.textLabels, methods, List.flatMap_map, names]
  refine ((promote_perm.flatMap_right _).trans ?_).trans (List.map_append_flatMap_perm _ _ _).symm
  clear lowered methods names merged
  generalize program.methods.zipIdx = jobs at each ⊢
  induction each with
  | nil => exact .refl _
  | cons here _ ih => exact here.append ih

section

variable (generated : program.generate cfg = .ok asm) (mem : code ∈ asm.methods)

include generated mem

/-- Every method jumps to labels made for it, which it defines. -/
theorem targets_inner (jumped : dst ∈ code.targets) :
    dst ∈ code.labels ∧ dst ∈ program.innerLabels := by
  obtain ⟨table, entry, outputs, _, lowered, _, methods, _, _⟩ := generate_eq_ok generated
  rw [methods] at mem
  obtain ⟨output, listed, rfl⟩ := List.mem_map.mp mem
  have made : List.Forall₂ (fun output (job : Method × Nat) =>
      job.1.generate table cfg job.2 = .ok output) outputs program.methods.zipIdx :=
    (lowerMethods_eq_ok lowered).flip
  obtain ⟨job, placed, lowered⟩ := exists_partner made (promote_perm.mem_iff.mp listed)
  obtain ⟨frame, run⟩ := Method.yields_of_generate lowered
  obtain ⟨labels, targets⟩ := Method.lower_labels run
  have inner := targets jumped
  exact ⟨labels.mem_iff.mpr (List.mem_cons_of_mem _ inner), List.mem_flatMap.mpr ⟨job, placed, inner⟩⟩

theorem references_known (read : label ∈ code.references) :
    label ∈ asm.data.labels ∧ asm.data.labels.Nodup ∧ DataSection.IsHash label := by
  have ran := generate_outcome (show False → program.Typed from False.elim) cfg
  rw [generated] at ran
  obtain ⟨distinct, proper⟩ := ran
  obtain ⟨labels, backed, proper⟩ := proper code mem
  obtain ⟨line, listed, inside⟩ := List.mem_flatMap.mp read
  obtain ⟨opnd, used, named⟩ := List.mem_filterMap.mp inside
  obtain ⟨known, hash⟩ := backed label ((proper line listed opnd used).known label named)
  exact ⟨known, distinct, hash⟩

end

end Program

/-- For a program with plain names, the text defines the labels of its methods and, once in all, each
label made for a branch, a loop or the end of a method. Every jump goes to one of these in the same
method. Every label that an operand is relative to is defined in the data, once by a constant and once
more by every struct of that name. -/
theorem labels_closed {program : Program} {settings : Settings} {assembly : Assembly}
    (plain : ∀ method ∈ program.methods, isIdentifier method.name = true)
    (generated : program.generate settings = .ok assembly) :
    assembly.textLabels.Perm
        (program.methods.map (fun method => method.signature.label) ++ program.innerLabels) ∧
      (∀ label ∈ program.innerLabels, assembly.textLabels.count label = 1) ∧
      (∀ code ∈ assembly.methods, ∀ target ∈ code.targets,
        target ∈ code.labels ∧ target ∈ program.innerLabels) ∧
      ∀ code ∈ assembly.methods, ∀ label ∈ code.references,
        assembly.dataLabels.count label = 1 + (program.structs.map Ty.name).count label := by
  have defined := Program.textLabels_perm generated
  refine ⟨defined, fun label inner => ?_, fun code member target jumped =>
    Program.targets_inner generated member jumped, fun code member label read => ?_⟩
  · have outside : label ∉ program.methods.map (fun method => method.signature.label) := by
      intro listed
      obtain ⟨method, member, rfl⟩ := List.mem_map.mp listed
      obtain ⟨job, _, inside⟩ := List.mem_flatMap.mp inner
      exact Method.label_not_inner (plain method member) inside
    rw [defined.count_eq, List.count_append, List.count_eq_zero_of_not_mem outside,
      List.count_eq_one_of_mem Program.innerLabels_nodup inner]
  · obtain ⟨known, distinct, hash⟩ := Program.references_known generated member read
    obtain ⟨_, _, _, _, _, _, _, structs, _⟩ := Program.generate_eq_ok generated
    rw [Assembly.dataLabels, structs, List.count_append, List.count_eq_one_of_mem distinct known,
      Assembly.count_structLabels hash, Nat.add_comm]

def putsCall (text : String) : Stmt :=
  .expression {} (.call {} "puts" [.string {} text] .void)

/-- A branch that returns from inside a loop, around a call of a method with two branches. Both write
the same text. -/
def reportMethods : List Method :=
  [⟨{}, "main", [], .void, some [.loop {} (.bool {} true) [
      .conditional {} (.bool {} false) [.returning {} none] none,
      .expression {} (.call {} "report" [.bool {} true] .void), putsCall "more"]], false⟩,
    ⟨{}, "report", [⟨"good", .prim .bool⟩], .void, some [
      .conditional {} (.ident {} "good" (.prim .bool)) [putsCall "more"] (some [putsCall "less"])], false⟩]

def reportProgram : Program where
  file := "report.x"
  structs := [.struct "state" [("good", .prim .bool)]]
  externals := [⟨{}, "puts", [⟨"text", .pointer (.prim .u8)⟩], .void, none, false⟩]
  methods := reportMethods

/-- A struct that is named like the text of its program. -/
def greetingProgram : Program where
  file := "a.x"
  structs := [.struct "str_ea8842e9ea2638fa" [("a", .prim .i64)]]
  externals := [⟨{}, "puts", [⟨"text", .pointer (.prim .u8)⟩], .void, none, false⟩]
  methods := [⟨{}, "main", [], .void, some [putsCall "hi"], false⟩]

/-- No code of the first program reads its struct, and some of the second reads a label defined twice. -/
theorem samples_generated :
    (reportProgram.generate {}).toOption.any (fun assembly =>
      assembly.methods.all fun code => code.references.all (· != "state")) = true ∧
    (greetingProgram.generate {}).toOption.any (fun assembly =>
      assembly.methods.any fun code => code.references.any fun label =>
        assembly.dataLabels.count label == 2) = true := by
  decide +kernel

theorem labels_closed_report :
    (∀ method ∈ reportMethods, isIdentifier method.name = true) ∧
    ∃ assembly, reportProgram.generate {} = .ok assembly ∧
      (∀ label ∈ [".L0_ret", ".L0_1", ".L0_2", ".L0_3", ".L1_ret", ".L1_1", ".L1_2"],
        assembly.textLabels.count label = 1) ∧
      ∀ code ∈ assembly.methods, ∀ label ∈ code.references, assembly.dataLabels.count label = 1 := by
  have plain : ∀ method ∈ reportMethods, isIdentifier method.name = true := by decide
  obtain ⟨assembly, generated, others⟩ := exists_ok _ _ samples_generated.1
  obtain ⟨_, once, _, read⟩ := labels_closed plain generated
  refine ⟨plain, assembly, generated, once, fun code member label used => ?_⟩
  have other := List.all_eq_true.mp (List.all_eq_true.mp others code member) label used
  rw [read code member label used, List.count_eq_zero_of_not_mem]
  simpa [reportProgram, Ty.name] using other

theorem label_of_struct_and_text : ∃ assembly, greetingProgram.generate {} = .ok assembly ∧
    ∃ code ∈ assembly.methods, ∃ label ∈ code.references, assembly.dataLabels.count label = 2 := by
  obtain ⟨assembly, generated, twice⟩ := exists_ok _ _ samples_generated.2
  simp only [List.any_eq_true, beq_iff_eq] at twice
  exact ⟨assembly, generated, twice⟩

end Nasm64
