import Mathlib.Data.List.Basic
import Nasm64.CommandLine.Parse

/-! Runs of the parser of arguments.

One step reads an argument, and with it the next one where that is the value of a flag. A run is a
sequence of steps, so it ends between two arguments of which neither is the value of the other, and
parsing goes on from there as if it had started there. -/
namespace Nasm64.CommandLine.FlagSet

/-- A step over the arguments `word`, with the flag and the text that it sets, if it does. -/
inductive Step (set : FlagSet) : (word : List String) → Option (String × String) → FlagSet → Prop
  | operand (means : set.meaning argument = .operand) :
    Step set [argument] none { set with operands := set.operands ++ [argument] }
  | attached (means : set.meaning argument = .assign flag text)
    (assigned : set.assign flag text = .ok next) : Step set [argument] (some (flag, text)) next
  | awaited (means : set.meaning argument = .await flag spelled)
    (assigned : set.assign flag text = .ok next) : Step set [argument, text] (some (flag, text)) next

/-- A run over arguments, with all that it sets, in order. -/
inductive Reads : FlagSet → List String → List (String × String) → FlagSet → Prop
  | nil {set : FlagSet} : Reads set [] [] set
  | cons {set next last : FlagSet} (step : Step set word given next) (rest : Reads next arguments givens last) :
    Reads set (word ++ arguments) (given.toList ++ givens) last

variable {set next last : FlagSet}

/-- The terminator is met: it stands behind arguments that are parsed with success on their own. If it
is the value of a flag instead, that flag lacks its argument there. -/
def MeetsTerminator (set : FlagSet) (arguments : List String) : Prop :=
  ∃ before after, arguments = before ++ "--" :: after ∧ (set.parse before).error = none

theorem bare_ne_terminator (flag : Flag) (spelled : String) : bare flag spelled ≠ .terminator := by
  unfold bare
  split <;> nofun

theorem named?_ne_terminator (set : FlagSet) (dashes : String) (text : List Char) :
    set.named? dashes text ≠ some .terminator := by
  intro means
  obtain ⟨flag, _, means⟩ := Option.map_eq_some_iff.mp means
  split at means
  · cases means
  · exact bare_ne_terminator _ _ means

theorem meaning_eq_terminator_iff : set.meaning argument = .terminator ↔ argument = "--" := by
  constructor
  · unfold meaning
    split
    · next letters => exact fun _ => String.toList_injective letters
    · split
      · next named => exact fun means => absurd (means ▸ named) (named?_ne_terminator _ _ _)
      · nofun
    · split
      · next named => exact fun means => absurd (means ▸ named) (named?_ne_terminator _ _ _)
      · split
        · nofun
        · exact fun means => absurd means (by grind [shorthandMeaning, bare_ne_terminator])
    · nofun
  · rintro rfl
    rfl

theorem Step.parseFrom_append (step : Step set word given next) (arguments : List String) :
    set.parseFrom (word ++ arguments) = next.parseFrom arguments := by
  cases step with
  | operand means => simp only [List.singleton_append, parseFrom, means]
  | attached means assigned => simp only [List.singleton_append, parseFrom, means, assigned]
  | awaited means assigned => simp only [List.cons_append, List.nil_append, parseFrom, means, assigned]

theorem Reads.trans (run : Reads set arguments givens next) (rest : Reads next others later last) :
    Reads set (arguments ++ others) (givens ++ later) last := by
  induction run with
  | nil => exact rest
  | cons step _ ih => simpa only [List.append_assoc] using Reads.cons step (ih rest)

theorem Reads.parseFrom_append (run : Reads set arguments givens last) (more : List String) :
    set.parseFrom (arguments ++ more) = last.parseFrom more := by
  induction run with
  | nil => rfl
  | cons step _ ih => rw [List.append_assoc, step.parseFrom_append, ih]

theorem Reads.parseFrom_eq (run : Reads set arguments givens last) :
    set.parseFrom arguments = { set := last } := by
  simpa [parseFrom] using run.parseFrom_append []

/-- Parsing that succeeds is a run over all arguments, or over those before the terminator. -/
theorem exists_reads {arguments : List String} (parsed : (set.parseFrom arguments).error = none) :
    ∃ before givens last, Reads set before givens last ∧
      (arguments = before ∨ ∃ after, arguments = before ++ "--" :: after) := by
  have extend {word given next} {set : FlagSet} {rest : List String} (step : Step set word given next)
      (tail : ∃ before givens last, Reads next before givens last ∧
        (rest = before ∨ ∃ after, rest = before ++ "--" :: after)) :
      ∃ before givens last, Reads set before givens last ∧
        (word ++ rest = before ∨ ∃ after, word ++ rest = before ++ "--" :: after) := by
    obtain ⟨before, givens, last, run, whole⟩ := tail
    refine ⟨_, _, last, .cons step run, ?_⟩
    rcases whole with rfl | ⟨after, rfl⟩
    · exact .inl rfl
    · exact .inr ⟨after, (List.append_assoc ..).symm⟩
  fun_induction parseFrom set arguments with
  | case1 set => exact ⟨[], [], set, .nil, .inl rfl⟩
  | case2 set argument rest means =>
    exact ⟨[], [], set, .nil, .inr ⟨rest, by rw [meaning_eq_terminator_iff.mp means]; rfl⟩⟩
  | case3 set argument rest means ih => exact extend (.operand means) (ih parsed)
  | case5 set argument rest flag text means next assigned ih =>
    exact extend (.attached means assigned) (ih parsed)
  | case8 set argument flag spelled means text rest next assigned ih =>
    exact extend (.awaited means assigned) (ih parsed)
  | case4 | case6 | case7 | case9 => cases parsed

/-- The set with more operands in front. -/
def behind (set : FlagSet) (operands : List String) : FlagSet :=
  { set with operands := operands ++ set.operands }

theorem assign_behind (set : FlagSet) (operands : List String) (flag text : String) :
    (set.behind operands).assign flag text = (set.assign flag text).map (·.behind operands) := by
  simp only [assign, behind]
  generalize List.mapM (m := Except ParseError) _ set.flags = flags
  cases flags <;> rfl

/-- Operands of before neither change what arguments mean nor what becomes of them. -/
theorem parseFrom_behind (set : FlagSet) (operands arguments : List String) :
    (set.behind operands).parseFrom arguments =
      { set.parseFrom arguments with set := (set.parseFrom arguments).set.behind operands } := by
  have same (set : FlagSet) (argument : String) :
      (set.behind operands).meaning argument = set.meaning argument := rfl
  fun_induction parseFrom set arguments with
  | case1 => rfl
  | case2 set argument rest means =>
    rw [parseFrom, same, means]
    simp [behind]
  | case3 set argument rest means ih =>
    rw [← ih, parseFrom, same, means]
    simp [behind]
  | case4 | case7 =>
    rename_i means
    rw [parseFrom, same, means]
  | case6 | case9 =>
    rename_i error assigned
    rw [parseFrom, same, ‹meaning _ _ = _›]
    simp [assign_behind, assigned, Except.map]
  | case5 | case8 =>
    rename_i next assigned ih
    rw [← ih, parseFrom, same, ‹meaning _ _ = _›]
    simp [assign_behind, assigned, Except.map]

/-- A successful run that does not meet the terminator covers all arguments. -/
theorem exists_reads_all {arguments : List String} (parsed : (set.parse arguments).error = none)
    (unmet : ¬ set.MeetsTerminator arguments) :
    ∃ givens last, Reads { set with operands := [] } arguments givens last := by
  obtain ⟨before, givens, last, run, rfl | ⟨after, rfl⟩⟩ := exists_reads parsed
  · exact ⟨givens, last, run⟩
  · refine absurd ⟨before, after, rfl, ?_⟩ unmet
    rw [parse, run.parseFrom_eq]

/-- No name of a prefix flag is the beginning of another one. -/
def PrefixFree (set : FlagSet) : Prop :=
  ∀ one ∈ set.prefixes, ∀ other ∈ set.prefixes, one.toList <+: other.toList → one = other

/-- What is left of an argument behind a prefix, if that is not all of it. -/
theorem drop_prefix_eq_some_iff {letters : List Char} {name : String} {found : String × String} :
    (match letters.drop name.length with
      | [] => none
      | rest => if name.toList.isPrefixOf letters then some (name, String.ofList rest) else none) =
      some found ↔ name = found.1 ∧ letters = name.toList ++ found.2.toList ∧ found.2 ≠ "" := by
  constructor
  · split
    · nofun
    · next rest filled =>
      split
      · next begins =>
        obtain ⟨tail, rfl⟩ := List.isPrefixOf_iff_prefix.mp begins
        rintro ⟨⟩
        have tail_eq : (name.toList ++ tail).drop name.length = tail := List.drop_left
        rw [tail_eq] at filled ⊢
        exact ⟨rfl, by simp, by simpa using filled⟩
      · nofun
  · obtain ⟨first, rest⟩ := found
    rintro ⟨rfl, rfl, filled⟩
    have tail_eq : (name.toList ++ rest.toList).drop name.length = rest.toList := List.drop_left
    have begins : name.toList.isPrefixOf (name.toList ++ rest.toList) = true :=
      List.isPrefixOf_iff_prefix.mpr (List.prefix_append ..)
    rw [tail_eq, begins]
    split
    · next none => exact absurd (by simpa using none) filled
    · simp

/-- Then the prefix of an argument and its rest are determined, in whatever order prefixes are tried. -/
theorem PrefixFree.prefixed?_eq_some_iff (free : set.PrefixFree) {letters : List Char}
    {name rest : String} : set.prefixed? letters = some (name, rest) ↔
      name ∈ set.prefixes ∧ letters = name.toList ++ rest.toList ∧ rest ≠ "" := by
  unfold prefixed?
  constructor
  · intro found
    obtain ⟨other, listed, found⟩ := List.exists_of_findSome?_eq_some found
    obtain ⟨rfl, split⟩ := drop_prefix_eq_some_iff.mp found
    exact ⟨listed, split⟩
  · rintro ⟨listed, split, filled⟩
    have takes := drop_prefix_eq_some_iff.mpr ⟨show name = (name, rest).1 from rfl, split, filled⟩
    cases found : set.prefixes.findSome? _ with
    | none => cases takes.symm.trans (List.findSome?_eq_none_iff.mp found name listed)
    | some pair =>
      obtain ⟨other, others, took⟩ := List.exists_of_findSome?_eq_some found
      obtain ⟨rfl, again, _⟩ := drop_prefix_eq_some_iff.mp took
      have same : name = pair.1 := by
        rcases List.prefix_or_prefix_of_prefix (again ▸ List.prefix_append ..)
          (split ▸ List.prefix_append ..) with before | before
        · exact (free _ others _ listed before).symm
        · exact free _ listed _ others before
      subst same
      rw [List.append_cancel_left (split.symm.trans again) |> String.toList_injective]

/-- Let `xs` be parsed with success and without meeting the terminator. Parsing `xs` and then `ys` in
one go is parsing `ys` with the flags that `xs` left, the error included, and the operands are those
of both. The terminator behind `xs` makes operands of all that follows. What an argument with a
prefix sets does not depend on the order of the prefixes. -/
theorem parsing_composes (set : FlagSet) (free : set.PrefixFree) (xs ys : List String)
    (parsed : (set.parse xs).error = none) (unmet : ¬ set.MeetsTerminator xs) :
    (let first := (set.parse xs).set
     let second := first.parse ys
     set.parse (xs ++ ys) = { second with set := second.set.behind first.operands }) ∧
    (let first := (set.parse xs).set
     set.parse (xs ++ "--" :: ys) = { set := { first with operands := first.operands ++ ys } }) ∧
    ∀ letters name rest, set.prefixed? letters = some (name, rest) ↔
      name ∈ set.prefixes ∧ letters = name.toList ++ rest.toList ∧ rest ≠ "" := by
  obtain ⟨givens, last, run⟩ := exists_reads_all parsed unmet
  have first : (set.parse xs).set = last := congrArg Parsed.set run.parseFrom_eq
  refine ⟨?_, ?_, fun _ _ _ => free.prefixed?_eq_some_iff⟩
  · have rejoined : last = { last with operands := [] }.behind last.operands := by simp [behind]
    simp only [first]
    calc set.parse (xs ++ ys) = last.parseFrom ys := run.parseFrom_append ys
      _ = ({ last with operands := [] }.behind last.operands).parseFrom ys := by rw [← rejoined]
      _ = _ := parseFrom_behind ..
  · simp only [first]
    rw [parse, run.parseFrom_append, parseFrom, meaning_eq_terminator_iff.mpr rfl]

/-- A file for the output, a number of jobs, and warnings by a prefix. -/
def someFlags : FlagSet where
  flags := [{ name := "output", shorthand := "o", value := .text "" },
    { name := "jobs", shorthand := "j", value := .integer 1 }, { name := "W", value := .list [] }]
  prefixes := ["W"]

/-- Here the terminator is the name of a file, and the second part ends in an error. -/
theorem parsing_composes_swallowing :
    someFlags.PrefixFree ∧ (someFlags.parse ["-o", "--", "-Wall", "in"]).error = none ∧
    ¬ someFlags.MeetsTerminator ["-o", "--", "-Wall", "in"] ∧
    someFlags.parse ["-o", "--", "-Wall", "in", "out", "-jx"] =
      { set := { flags := [{ name := "output", shorthand := "o", value := .text "--" },
                  { name := "jobs", shorthand := "j", value := .integer 1 },
                  { name := "W", value := .list ["all"] }]
                 prefixes := ["W"]
                 operands := ["in", "out"] }
        error := some (.value (.notInteger "jobs" "x" .malformed)) } := by
  have free : someFlags.PrefixFree := by
    intro one first other second _
    exact (List.mem_singleton.mp first).trans (List.mem_singleton.mp second).symm
  have parsed : (someFlags.parse ["-o", "--", "-Wall", "in"]).error = none := by decide +kernel
  have unmet : ¬ someFlags.MeetsTerminator ["-o", "--", "-Wall", "in"] := by
    rintro ⟨before, after, whole, alone⟩
    match before, whole with
    | [], whole => exact absurd (List.cons.inj whole).1 (by decide +kernel)
    | [first], whole =>
      obtain ⟨rfl, _⟩ := List.cons.inj whole
      revert alone
      decide +kernel
    | first :: second :: rest, whole =>
      have listed : "--" ∈ ["-Wall", "in"] := by
        rw [(List.cons.inj (List.cons.inj whole).2).2]
        simp
      revert listed
      decide +kernel
  refine ⟨free, parsed, unmet, ?_⟩
  rw [show ["-o", "--", "-Wall", "in", "out", "-jx"] = ["-o", "--", "-Wall", "in"] ++ ["out", "-jx"] from rfl,
    (parsing_composes someFlags free _ _ parsed unmet).1]
  decide +kernel

end Nasm64.CommandLine.FlagSet
