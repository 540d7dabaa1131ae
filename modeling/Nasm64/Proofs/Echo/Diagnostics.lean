import Nasm64.Proofs.Lower.Program
import Nasm64.Proofs.Text.Lines

/-! Warnings and comments do not influence the code of a program. -/
namespace Nasm64

open Lower Attempt Method Text

/-- Only the warnings that are wanted, and whether statements are annotated, may differ. -/
structure Settings.DiffersInDiagnostics (settings other : Settings) : Prop where
  features : ∀ feature ≠ Feature.asmComments, settings.hasFeature feature = other.hasFeature feature
  target : settings.target = other.target
  stackAlignment : settings.stackAlignment = other.stackAlignment
  shadowSpace : settings.shadowSpace = other.shadowSpace
  jobs : settings.jobs = other.jobs
  linkerArguments : settings.linkerArguments = other.linkerArguments

variable {cfg other : Settings}

/-- Warnings of two runs, each with those that it wants: they agree on the kinds that both want. -/
structure Lower.WarnedAlike (wanted others : WarningKind → Bool) (warnings twins : List Warning) : Prop where
  common : (warnings.filter fun warning => others warning.kind) =
    twins.filter fun warning => wanted warning.kind
  wanted : ∀ warning ∈ warnings, wanted warning.kind = true

namespace Lower.WarnedAlike

variable {wanted others : WarningKind → Bool} {warnings twins : List Warning}

theorem nil : WarnedAlike wanted others [] [] := ⟨rfl, by simp⟩

theorem append (first : WarnedAlike wanted others warnings twins)
    (second : WarnedAlike wanted others more further) :
    WarnedAlike wanted others (warnings ++ more) (twins ++ further) where
  common := by rw [List.filter_append, List.filter_append, first.common, second.common]
  wanted := List.forall_mem_append.mpr ⟨first.wanted, second.wanted⟩

theorem single (warning : Warning) :
    WarnedAlike wanted others (if wanted warning.kind then [warning] else [])
      (if others warning.kind then [warning] else []) := by
  cases left : wanted warning.kind <;> cases right : others warning.kind
  all_goals exact ⟨by simp [left, right], by simp [left]⟩

/-- A run that wants less reports what the other does, filtered by what it wants. -/
theorem eq_filter (alike : WarnedAlike wanted others warnings twins)
    (less : ∀ kind, wanted kind = true → others kind = true) :
    warnings = twins.filter fun warning => wanted warning.kind := by
  rw [← alike.common, List.filter_eq_self.mpr]
  intro warning mem
  exact less _ (alike.wanted warning mem)

end Lower.WarnedAlike

/-- Two runs that differ in the warnings and comments that they want. -/
def Lower.Pairing.diagnostic {left right : Env} (agrees : left.Agrees right) : Pairing where
  left
  right
  related margin twin := margin.scope = twin.scope ∧
    WarnedAlike left.hasWarning right.hasWarning margin.warnings twin.warnings
  names _ := True
  agrees
  warned := by
    rintro margin twin warning ⟨scope, alike⟩
    have grown := alike.append (.single warning)
    unfold Margin.warn
    cases wanted : left.hasWarning warning.kind <;> cases others : right.hasWarning warning.kind
    all_goals simpa [wanted, others, scope] using grown
  found := by
    rintro margin twin name _ ⟨scope, _⟩
    rw [scope]

theorem Lower.Pairing.diagnostic_sharesScope {left right : Env} (agrees : left.Agrees right) :
    (Pairing.diagnostic agrees).SharesScope where
  all _ := trivial
  same _ _ related := related.1
  rescoped _ _ _ related := ⟨rfl, related.2⟩

structure Method.Output.Alike (settings other : Settings) (output twin : Method.Output) : Prop where
  code : Code.SameButComments output.code twin.code
  data : output.data = twin.data
  warnings : WarnedAlike settings.hasWarning other.hasWarning output.warnings twin.warnings

theorem Method.generate_agree (differ : cfg.DiffersInDiagnostics other) (table : SymbolTable)
    (method : Method) (i : Nat) :
    Agree (Output.Alike cfg other) (generate table cfg method i)
      (generate table other method i) := by
  have agrees : (⟨i, method.signature, table, some cfg⟩ : Env).Agrees
      ⟨i, method.signature, table, some other⟩ :=
    ⟨rfl, rfl, rfl, differ.shadowSpace, differ.stackAlignment, differ.features _ (by decide)⟩
  have started : (Pairing.diagnostic agrees).Matches {} {} := ⟨⟨[], []⟩, ⟨rfl, .nil⟩, rfl⟩
  apply (lower_echoes (Pairing.diagnostic_sharesScope agrees) method started).bind
  rintro ⟨code, frame⟩ ⟨twin, _⟩ ⟨same, margin, ⟨_, warned⟩, rfl⟩
  exact .ok ⟨same, rfl, warned⟩

namespace Program

variable {α β γ : Type} {post : β → γ → Prop}

theorem fault?_agree (agree : Agree post x y) : fault? x = fault? y := by
  cases agree with
  | ok => rfl
  | @error halt => cases halt <;> rfl

theorem concurrently_agree {run : α → Except Halt β} {twin : α → Except Halt γ}
    (each : ∀ job ∈ jobs, Agree post (run job) (twin job)) :
    Agree (List.Forall₂ post) (concurrently jobs run) (concurrently jobs twin) := by
  have faults : (jobs.map run).findSome? fault? = (jobs.map twin).findSome? fault? := by
    induction jobs with
    | nil => rfl
    | cons job rest ih =>
      have others := ih fun job mem => each job (List.mem_cons_of_mem _ mem)
      simp only [List.map_cons, List.findSome?_cons, fault?_agree (each job List.mem_cons_self), others]
  have whole {δ : Type} (f : α → Except Halt δ) : (jobs.map f).mapM id = jobs.mapM f := by
    rw [List.mapM_map]
    rfl
  unfold concurrently
  simp only [faults, whole]
  cases (jobs.map twin).findSome? fault? with
  | some fault => exact .error
  | none => exact .mapM each

theorem lowerMethods_agree (differ : cfg.DiffersInDiagnostics other) (program : Program)
    (table : SymbolTable) :
    Agree (List.Forall₂ (Output.Alike cfg other)) (program.lowerMethods table cfg)
      (program.lowerMethods table other) := by
  have each : ∀ job ∈ program.methods.zipIdx, Agree (Output.Alike cfg other)
      (Method.generate table cfg job.1 job.2) (Method.generate table other job.1 job.2) :=
    fun job _ => generate_agree differ table job.1 job.2
  unfold lowerMethods
  rw [differ.features .parallel (by decide), differ.jobs]
  by_cases parallel : (other.hasFeature .parallel && 1 < other.jobs) = true
  · rw [if_pos parallel, if_pos parallel]
    exact concurrently_agree each
  · rw [if_neg parallel, if_neg parallel]
    exact .mapM each

theorem promote_related (related : List.Forall₂ post outputs twins) (entry : Nat) :
    List.Forall₂ post (promote entry outputs) (promote entry twins) := by
  have chosen : List.Forall₂ post outputs[entry]?.toList twins[entry]?.toList := by
    induction related generalizing entry with
    | nil => exact .nil
    | cons here _ ih =>
      cases entry with
      | zero => exact .cons here .nil
      | succ entry => exact ih entry
  have others : List.Forall₂ post (outputs.eraseIdx entry) (twins.eraseIdx entry) := by
    clear chosen
    induction related generalizing entry with
    | nil => exact .nil
    | cons here rest ih =>
      cases entry with
      | zero => exact rest
      | succ entry => exact .cons here (ih entry)
  exact List.rel_append chosen others

end Program

namespace Method.Output.Alike

variable {outputs twins : List Method.Output}

section

variable (alike : List.Forall₂ (Alike cfg other) outputs twins)

include alike

theorem merge_eq (data : DataSection) :
    outputs.foldl (fun data output => data.merge output.data) data =
      twins.foldl (fun data output => data.merge output.data) data := by
  induction alike generalizing data with
  | nil => rfl
  | cons here _ ih => rw [List.foldl_cons, List.foldl_cons, here.data, ih]

theorem warnings_alike :
    WarnedAlike cfg.hasWarning other.hasWarning (outputs.flatMap Output.warnings)
      (twins.flatMap Output.warnings) := by
  induction alike with
  | nil => exact .nil
  | cons here _ ih => exact here.warnings.append ih

theorem plainLines_eq (rest : List Char) : plainLines
        ((String.join ((outputs.map Output.code).map fun code => "\n" ++ code.text)).toList ++ rest) =
      plainLines
        ((String.join ((twins.map Output.code).map fun code => "\n" ++ code.text)).toList ++ rest) := by
  induction alike with
  | nil => rfl
  | cons here _ ih =>
    simp only [List.map_cons, String.join_cons, String.toList_append, List.append_assoc]
    have newline : Ends "\n" := ⟨[], rfl⟩
    exact newline.plainLines_congr (here.code.plainLines_congr ih)

end

end Method.Output.Alike

/-- Assemblies whose parts agree have texts that agree. -/
theorem Assembly.plainLines_eq {asm twin : Assembly} {outputs twins : List Output}
    (alike : List.Forall₂ (Output.Alike cfg other) outputs twins)
    (externals : asm.externals = twin.externals) (structs : asm.structs = twin.structs)
    (data : asm.data = twin.data) (methods : asm.methods = outputs.map Output.code)
    (others : twin.methods = twins.map Output.code) :
    plainLines asm.text.toList = plainLines twin.text.toList := by
  unfold Assembly.text
  rw [externals, structs, data, methods, others]
  have header : Ends ("bits 64\ndefault rel\n\nglobal main\n" ++
      String.join (twin.externals.map fun name => "extern " ++ name ++ "\n") ++ "\nsection .text\n") :=
    Ends.append ⟨"\nsection .text".toList, rfl⟩
  have spelled (first second third : String) :
      (first ++ second ++ third).toList = first.toList ++ (second.toList ++ third.toList) := by
    rw [String.toList_append, String.toList_append, List.append_assoc]
  refine (congrArg plainLines (spelled _ _ _)).trans
    (Eq.trans ?_ (congrArg plainLines (spelled _ _ _)).symm)
  exact header.plainLines_congr (Output.Alike.plainLines_eq alike _)

/-- Settings that differ in the warnings and comments that are wanted lead to the same error, or to
texts that are the same line by line apart from comments. With fewer warnings wanted, those of the
other settings are reported, filtered by kind. -/
theorem generation_ignores_diagnostics (program : Program) (settings other : Settings)
    (differ : settings.DiffersInDiagnostics other) :
    Agree (fun assembly twin =>
        Text.plainLines assembly.text.toList = Text.plainLines twin.text.toList ∧
        ((∀ kind, settings.hasWarning kind = true → other.hasWarning kind = true) →
          assembly.warnings = twin.warnings.filter fun warning => settings.hasWarning warning.kind))
      (program.generate settings) (program.generate other) := by
  unfold Program.generate Program.generateBy
  cases program.symbolTable with
  | error halt => exact .error
  | ok table =>
    dsimp only [bind, Except.bind]
    cases program.methods.findIdx? fun method => method.name == "main" with
    | none => exact .error
    | some entry =>
      apply (Program.lowerMethods_agree differ program table).bind
      intro outputs twins alike
      have ordered := Program.promote_related alike entry
      refine .ok ⟨?_, fun less => ?_⟩
      · exact Assembly.plainLines_eq ordered rfl rfl (Method.Output.Alike.merge_eq ordered _) rfl rfl
      · exact (Method.Output.Alike.warnings_alike alike).eq_filter less

/-- A cast that truncates, a variable that is never used and code after a return. -/
def Program.careless : Program where
  file := "careless"
  structs := []
  externals := []
  methods := [{
    position := {}
    name := "main"
    parameters := []
    result := .prim .i8
    body := some [.declaration ⟨1, 1, 1⟩ "x" (.prim .i64) none,
      .declaration ⟨2, 1, 1⟩ "y" (.prim .i64) none,
      .returning ⟨3, 1, 1⟩ (some (.cast ⟨3, 8, 1⟩ (.ident ⟨3, 9, 1⟩ "y" (.prim .i64)) (.prim .i8))),
      .returning ⟨4, 1, 1⟩ (some (.number ⟨4, 8, 1⟩ 0 (.prim .i8)))] }]

/-- Every statement is annotated, and every warning is wanted. -/
def Settings.verbose : Settings := { hasFeature := fun _ => true, hasWarning := fun _ => true }

theorem generation_ignores_diagnostics_careless :
    ∃ assembly twin, Program.careless.generate {} = .ok assembly ∧
      Program.careless.generate .verbose = .ok twin ∧
      assembly.methods.flatten.length + 3 = twin.methods.flatten.length ∧
      Text.plainLines assembly.text.toList = Text.plainLines twin.text.toList ∧
      assembly.warnings = twin.warnings.filter (fun warning => warning.kind != .narrowing) ∧
      assembly.warnings.length + 1 = twin.warnings.length := by
  have differ : Settings.DiffersInDiagnostics {} .verbose :=
    ⟨by intro feature other; cases feature <;> first | rfl | exact absurd rfl other, rfl, rfl, rfl, rfl, rfl⟩
  have counted : (Program.careless.generate {}).toOption.map (fun assembly =>
        (assembly.methods.flatten.length, assembly.warnings.length)) = some (9, 2) ∧
      (Program.careless.generate .verbose).toOption.map (fun assembly =>
        (assembly.methods.flatten.length, assembly.warnings.length)) = some (12, 3) := by
    decide +kernel
  have agree := generation_ignores_diagnostics .careless {} .verbose differ
  generalize Program.careless.generate {} = first, Program.careless.generate .verbose = second at agree counted
  cases agree with
  | error => cases counted.1
  | @ok assembly twin holds =>
    obtain ⟨left, right⟩ := counted
    simp only [Except.toOption, Option.map_some, Option.some.injEq, Prod.mk.injEq] at left right
    refine ⟨assembly, twin, rfl, rfl, by omega, holds.1, ?_, by omega⟩
    rw [holds.2 fun _ _ => rfl]
    congr 1
    funext warning
    cases warning.kind <;> rfl

end Nasm64
