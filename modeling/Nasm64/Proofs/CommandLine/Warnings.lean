import Mathlib.Data.List.TakeWhile
import Nasm64.Command
import Nasm64.Proofs.CommandLine.Run

/-! Warnings on the command line.

A warning has a switch for on and one for off, which are flags of their own, and every other argument
with the letter of warnings adds a word to a list. The switches are taken over first and the words are
applied to the result, so that the last word about a warning decides, wherever the switches stand. -/
namespace Nasm64

open CommandLine

namespace CommandLine.FlagSet

variable {set next last : FlagSet}

/-- The texts that a run gives to a flag. -/
def textsOf (name : String) (givens : List (String × String)) : List String :=
  givens.filterMap fun given => if given.1 = name then some given.2 else none

/-- What an assignment makes of one flag. -/
def assignTo (name text : String) (flag : Flag) : Except ParseError Flag :=
  if flag.name == name then
    match flag.value.assign flag.name text with
    | .ok value => .ok { flag with value }
    | .error error => .error (.value error)
  else .ok flag

theorem assign_eq (set : FlagSet) (name text : String) :
    set.assign name text =
      (set.flags.mapM (assignTo name text)).map fun flags => { set with flags := flags } := by
  show (set.flags.mapM (assignTo name text) >>= _) = _
  cases set.flags.mapM (assignTo name text) <;> rfl

theorem name_assignTo (assigned : assignTo name text flag = .ok flag') : flag'.name = flag.name := by
  unfold assignTo at assigned
  split at assigned
  · split at assigned <;> cases assigned
    rfl
  · cases assigned
    rfl

/-- The first flag of a name is what assignment makes of the first one before. -/
theorem find?_assignTo {flags assigned : List Flag} (mapped : flags.mapM (assignTo name text) = .ok assigned)
    {other : String} (found : flags.find? (·.name == other) = some flag) :
    ∃ flag', assignTo name text flag = .ok flag' ∧ assigned.find? (·.name == other) = some flag' := by
  induction flags generalizing assigned with
  | nil => cases found
  | cons head tail ih =>
    rw [List.mapM_cons] at mapped
    cases first : assignTo name text head with
    | error error => rw [first] at mapped; cases mapped
    | ok head' =>
      cases rest : tail.mapM (assignTo name text) with
      | error error => rw [first, rest] at mapped; cases mapped
      | ok tail' =>
        rw [first, rest] at mapped
        cases mapped
        rw [List.find?_cons] at found ⊢
        rw [name_assignTo first]
        split at found
        · cases found
          exact ⟨head', first, rfl⟩
        · exact ih rest found

/-- A flag takes over the text that is given to it, and the others keep what they have. -/
theorem value?_assign (assigned : set.assign flag text = .ok next) (held : set.value? name = some value) :
    ∃ value', next.value? name = some value' ∧
      if flag = name then value.assign name text = .ok value' else value' = value := by
  obtain ⟨entry, found, rfl⟩ := Option.map_eq_some_iff.mp held
  rw [assign_eq] at assigned
  cases mapped : set.flags.mapM (assignTo flag text) with
  | error error => rw [mapped] at assigned; cases assigned
  | ok flags =>
    rw [mapped] at assigned
    cases assigned
    obtain ⟨entry', taken, found'⟩ := find?_assignTo mapped found
    refine ⟨entry'.value, Option.map_eq_some_iff.mpr ⟨entry', found', rfl⟩, ?_⟩
    have named : entry.name = name := by simpa using List.find?_some found
    subst named
    unfold assignTo at taken
    grind

section

variable {P : List String → Value → Prop} (texts : List String)
  (assigns : ∀ texts value text value', P texts value → value.assign name text = .ok value' →
    P (texts ++ [text]) value')

include assigns

theorem Step.value? (step : Step set word given next) (held : set.value? name = some value)
    (holds : P texts value) :
    ∃ value', next.value? name = some value' ∧ P (texts ++ textsOf name given.toList) value' := by
  have assignment {flag text} (assigned : set.assign flag text = .ok next) :
      ∃ value', next.value? name = some value' ∧ P (texts ++ textsOf name [(flag, text)]) value' := by
    obtain ⟨value', left, taken⟩ := value?_assign assigned held
    refine ⟨value', left, ?_⟩
    by_cases same : flag = name
    · rw [if_pos same] at taken
      simpa [textsOf, same] using assigns _ _ _ _ holds taken
    · rw [if_neg same] at taken
      simpa [textsOf, same, taken] using holds
  cases step with
  | operand => exact ⟨value, held, by simpa [textsOf] using holds⟩
  | attached _ assigned | awaited _ assigned => exact assignment assigned

/-- What a run leaves in a flag is settled by the texts that it gives to that flag. -/
theorem Reads.value? (run : Reads set arguments givens last) (held : set.value? name = some value)
    (holds : P texts value) :
    ∃ value', last.value? name = some value' ∧ P (texts ++ textsOf name givens) value' := by
  induction run generalizing value texts with
  | nil => exact ⟨value, held, by simpa [textsOf] using holds⟩
  | cons step _ ih =>
    obtain ⟨value', left, holds⟩ := step.value? texts assigns held holds
    simpa [textsOf, List.append_assoc] using ih _ left holds

end

theorem Reads.list (run : Reads set arguments givens last) (held : set.value? name = some (.list [])) :
    last.value? name = some (.list (textsOf name givens)) := by
  obtain ⟨value, left, rfl⟩ := run.value? [] (P := fun texts value => value = .list texts)
    (fun texts value text value' holds taken => by subst holds; cases taken; rfl) held rfl
  simpa using left

/-- A switch stays one, and is off only after a text that says false. -/
theorem bool_of_assign (taken : (Value.bool on).assign name text = .ok value) :
    ∃ on', value = .bool on' ∧ (Value.bool? text ≠ some false → on' = true) := by
  simp only [Value.assign] at taken
  split at taken
  · cases taken
    exact ⟨true, rfl, fun _ => rfl⟩
  · split at taken
    · next told =>
      cases taken
      exact ⟨_, rfl, fun kept => by simpa [told] using kept⟩
    · cases taken

theorem Reads.isBool (run : Reads set arguments givens last) (held : set.value? name = some (.bool on)) :
    ∃ on', last.value? name = some (.bool on') := by
  obtain ⟨value, left, on', rfl⟩ := run.value? [] (P := fun _ value => ∃ on, value = .bool on)
    (fun texts value text value' ⟨on, holds⟩ taken =>
      let ⟨on', switch, _⟩ := bool_of_assign (holds ▸ taken)
      ⟨on', switch⟩) held ⟨on, rfl⟩
  exact ⟨on', left⟩

/-- A switch that is on stays on unless it is set to false. -/
theorem Reads.stays_on (run : Reads set arguments givens last) (held : set.value? name = some (.bool true))
    (kept : ∀ text, (name, text) ∈ givens → Value.bool? text ≠ some false) :
    last.value? name = some (.bool true) := by
  obtain ⟨value, left, holds⟩ := run.value? []
    (P := fun texts value => (∀ text ∈ texts, Value.bool? text ≠ some false) → value = .bool true)
    (fun texts value text value' holds taken kept => by
      have on := holds fun text mem => kept text (List.mem_append_left _ mem)
      obtain ⟨on', rfl, stays⟩ := bool_of_assign (on ▸ taken)
      rw [stays (kept text (by simp))]) held fun _ => rfl
  rw [left, holds]
  simpa [textsOf] using kept

/-- A switch without a value is turned on. -/
theorem meaning_switch (held : set.value? name = some (.bool on))
    (letters : name.toList = first :: rest) (plain : first ≠ '-') (whole : '=' ∉ name.toList) :
    set.meaning ("-" ++ name) = .assign name "" := by
  obtain ⟨flag, found, switch⟩ := Option.map_eq_some_iff.mp held
  have named : flag.name = name := by simpa using List.find?_some found
  have uncut : cut (first :: rest) = (name, none) := by
    have all : ∀ letter ∈ first :: rest, (letter != '=') = true := by
      intro letter mem
      rw [← letters] at mem
      simpa using ne_of_mem_of_not_mem mem whole
    rw [cut, List.takeWhile_eq_self_iff.mpr all, List.dropWhile_eq_nil_iff.mpr all, ← letters,
      String.ofList_toList]
  have means : set.named? "-" (first :: rest) = some (.assign name "") := by
    simp [named?, uncut, found, bare, switch, Value.isBool, named]
  have spelled : ("-" ++ name).toList = '-' :: first :: rest := by
    rw [String.toList_append, letters]
    rfl
  unfold meaning
  rw [spelled]
  split
  · next same => exact absurd (List.cons.inj (List.cons.inj same).2).1 plain
  · next same => exact absurd (List.cons.inj (List.cons.inj same).2).1 plain
  · next same =>
    obtain ⟨rfl, rfl⟩ := List.cons.inj (List.cons.inj same).2
    rw [means]
  · next plain => exact absurd rfl (plain _ _)

end CommandLine.FlagSet

/-- What a word behind the letter of warnings says about a warning, if anything. -/
def WarningKind.verdict (warning : WarningKind) (word : String) : Option Bool :=
  if word = "all" ∨ word = warning.name then some true
  else if word = "no-all" ∨ word = "no-" ++ warning.name then some false
  else none

/-- A word with `no-` in front is about the warning that the rest names. -/
theorem WarningKind.verdict_no (warning : WarningKind) (name : String) :
    warning.verdict ("no-" ++ name) = if name = "all" ∨ name = warning.name then some false else none := by
  have letters : ("no-" ++ name).toList = 'n' :: 'o' :: '-' :: name.toList := by
    rw [String.toList_append]
    rfl
  have apart (other : String) (plain : other.toList.take 3 ≠ ['n', 'o', '-']) : "no-" ++ name ≠ other := by
    rintro rfl
    exact plain (by rw [letters]; rfl)
  have positive : ¬ ("no-" ++ name = "all" ∨ "no-" ++ name = warning.name) := by
    rintro (same | same)
    · exact apart _ (by decide) same
    · exact apart _ (by cases warning <;> decide) same
  have cancel (other : String) : "no-" ++ name = "no-" ++ other ↔ name = other := by simp
  rw [WarningKind.verdict, if_neg positive]
  exact if_congr (or_congr (cancel "all") (cancel _)) rfl rfl

namespace Settings

theorem hasWarning_applyWarning (settings : Settings) (word : String) (on : Bool) (warning : WarningKind) :
    (settings.applyWarning word on).hasWarning warning =
      if word = "all" ∨ word = warning.name then on else settings.hasWarning warning := by
  by_cases all : word = "all"
  · simp [applyWarning, all]
  · by_cases named : word = warning.name
    · subst named
      cases warning <;> simp [applyWarning, WarningKind.all, WarningKind.name, setWarning]
    · unfold applyWarning
      rw [if_neg (by simpa using all), if_neg (by simp [all, named])]
      split
      · next other found =>
        have other_name : other.name = word := by simpa using List.find?_some found
        have apart : warning ≠ other := by
          rintro rfl
          exact named other_name.symm
        simp [setWarning, apart]
      · rfl

theorem hasWarning_applyFlag (settings : Settings) (word : String) (warning : WarningKind) :
    (settings.applyFlag ("-W" ++ word)).hasWarning warning =
      (warning.verdict word).getD (settings.hasWarning warning) := by
  have letters : ("-W" ++ word).toList = '-' :: 'W' :: word.toList := by
    rw [String.toList_append]
    rfl
  unfold applyFlag
  rw [letters]
  show (settings.applySwitch ('W' :: word.toList)).hasWarning warning = _
  unfold applySwitch
  split
  · next name spelled =>
    have word_eq : word = "no-" ++ String.ofList name := by
      apply String.toList_injective
      simp [(List.cons.inj spelled).2]
    rw [hasWarning_applyWarning, word_eq, WarningKind.verdict_no]
    split <;> rfl
  · next name plain spelled =>
    obtain rfl := (List.cons.inj spelled).2
    have other : ¬ (word = "no-all" ∨ word = "no-" ++ warning.name) := by
      rintro (rfl | rfl)
      · exact plain _ rfl
      · exact plain warning.name.toList (by rw [String.toList_append]; rfl)
    rw [hasWarning_applyWarning, String.ofList_toList, WarningKind.verdict, if_neg other]
    split <;> rfl
  · next spelled => cases spelled
  · next spelled => cases spelled
  · next plain _ _ => exact absurd rfl (plain _)

/-- The last word about a warning decides, and without one it stays as it is. -/
theorem hasWarning_applyFlags (settings : Settings) (words : List String) (warning : WarningKind) :
    (words.foldl (fun settings word => settings.applyFlag ("-W" ++ word)) settings).hasWarning warning =
      ((words.filterMap warning.verdict).getLast?).getD (settings.hasWarning warning) := by
  induction words generalizing settings with
  | nil => rfl
  | cons word words ih =>
    rw [List.foldl_cons, ih, hasWarning_applyFlag, List.filterMap_cons]
    cases warning.verdict word with
    | none => rfl
    | some on =>
      rw [List.getLast?_cons]
      cases (words.filterMap warning.verdict).getLast? <;> rfl

end Settings

namespace Command

/-- The flags of the command, with the one for help. -/
def commandFlags : FlagSet :=
  (flags {} >>= fun set => set.defineBool "help" "h" "Display this information" false).toOption.getD {}

theorem commandFlags_eq :
    (flags {} >>= fun set => set.defineBool "help" "h" "Display this information" false) =
      .ok commandFlags := by
  have defined : (flags {} >>= fun set =>
      set.defineBool "help" "h" "Display this information" false).isOk = true := by decide +kernel
  unfold commandFlags
  cases made : flags {} >>= fun set => set.defineBool "help" "h" "Display this information" false with
  | error error => rw [made] at defined; cases defined
  | ok set => rfl

/-- The name of the flag that turns a warning off. -/
def offName (warning : WarningKind) : String := "Wno-" ++ warning.name

/-- Before the first argument there is no operand, no warning was named and none is off. -/
theorem commandFlags_fresh :
    commandFlags.operands = [] ∧ commandFlags.value? "W" = some (.list []) ∧
      ∀ warning, commandFlags.value? (offName warning) = some (.bool false) := by
  refine ⟨by decide +kernel, by decide +kernel, fun warning => ?_⟩
  cases warning <;> decide +kernel

/-- The settings that generation starts with, unless the command ends before. -/
def startSettings? (arguments : List String) (year : Year) : Option Settings :=
  match flags {} >>= fun set => (app set).run arguments year with
  | .ok { flags, request := .action _, .. } => (settingsOf flags).toOption
  | _ => none

theorem run_flags {year : Year} (ran : (flags {} >>= fun set => (app set).run arguments year) = .ok result) :
    result.flags = (commandFlags.parse arguments).set := by
  cases defined : flags {} with
  | error error => rw [defined] at ran; cases ran
  | ok set =>
    have helped : set.defineBool "help" "h" "Display this information" false = .ok commandFlags := by
      have made := commandFlags_eq
      rwa [defined] at made
    rw [defined] at ran
    change (app set).run arguments year = .ok result at ran
    rw [App.run, show (app set).flags = set from rfl, helped] at ran
    dsimp only [bind, Except.bind] at ran
    split at ran
    · cases ran
      rfl
    · split at ran <;> cases ran <;> rfl

/-- Generation starts with the flags that parsing leaves. -/
theorem settingsOf_parse {year : Year} (started : startSettings? arguments year = some settings) :
    settingsOf (commandFlags.parse arguments).set = .ok settings := by
  unfold startSettings? at started
  split at started
  · next ran =>
    rw [← run_flags ran]
    cases chosen : settingsOf _ with
    | error error => rw [chosen] at started; cases started
    | ok chosen' =>
      rw [chosen] at started
      exact congrArg Except.ok (Option.some.inj started)
  · cases started

theorem hasWarning_settingsOf {set : FlagSet} (chosen : settingsOf set = .ok settings) :
    settings.hasWarning = (switched set).hasWarning := by
  unfold settingsOf Settings.setTarget at chosen
  split at chosen
  · cases chosen
    rfl
  · split at chosen <;> cases chosen
    rfl

/-- With the switch for off on, the words decide alone. -/
theorem hasWarning_switched (set : FlagSet) (off : set.value? (offName warning) = some (.bool true))
    (words : set.value? "W" = some (.list texts)) :
    (switched set).hasWarning warning = ((texts.filterMap warning.verdict).getLast?).getD false := by
  have name : (Settings.warningSwitch {} warning).offName = offName warning := by cases warning <;> decide
  have isOff : (Settings.applySwitches {} set).hasWarning warning = false := by
    simp [Settings.applySwitches, Settings.isChosen, name, FlagSet.isOn, off]
  rw [switched, Settings.hasWarning_applyFlags, isOff, listOf, words]

/-- Reading the switch that turns a warning off leaves it on, as long as nothing sets it to false. -/
theorem off_of_reads {middle last : FlagSet} (held : middle.value? (offName warning) = some (.bool on))
    (rest : FlagSet.Reads middle (("-Wno-" ++ warning.name) :: after) later last)
    (kept : ∀ text, (offName warning, text) ∈ later → Value.bool? text ≠ some false) :
    last.value? (offName warning) = some (.bool true) := by
  have means : middle.meaning ("-Wno-" ++ warning.name) = .assign (offName warning) "" := by
    have spelled : "-Wno-" ++ warning.name = "-" ++ offName warning := by cases warning <;> decide
    rw [spelled]
    cases warning <;> exact FlagSet.meaning_switch held rfl (by decide) (by decide)
  generalize listed : ("-Wno-" ++ warning.name) :: after = words at rest
  cases rest with
  | nil => cases listed
  | cons step tail =>
    cases step with
    | operand other =>
      obtain ⟨rfl, rfl⟩ := List.cons.inj listed
      rw [means] at other
      cases other
    | attached other assigned =>
      obtain ⟨rfl, rfl⟩ := List.cons.inj listed
      rw [means] at other
      cases other
      obtain ⟨value, left, taken⟩ := FlagSet.value?_assign assigned held
      rw [if_pos rfl] at taken
      cases taken
      exact tail.stays_on left fun text mem => kept text (List.mem_append_right _ mem)
    | awaited other assigned =>
      obtain ⟨rfl, rfl⟩ := List.cons.inj listed
      rw [means] at other
      cases other

/-- Let the switch that turns a warning off be read as such, and not be set to false later. When
generation starts, the warning is on if and only if some word behind the letter of warnings is about
it and the last such word turns it on. -/
theorem warning_off_unless_named {arguments before after : List String} {year : Year}
    {settings : Settings} {middle last : FlagSet} {givens later : List (String × String)}
    (warning : WarningKind) (started : startSettings? arguments year = some settings)
    (first : FlagSet.Reads commandFlags before givens middle)
    (rest : FlagSet.Reads middle (("-Wno-" ++ warning.name) :: after) later last)
    (whole : arguments = before ++ ("-Wno-" ++ warning.name) :: after ∨
      ∃ operands, arguments = before ++ ("-Wno-" ++ warning.name) :: after ++ "--" :: operands)
    (kept : ∀ text, (offName warning, text) ∈ later → Value.bool? text ≠ some false) :
    settings.hasWarning warning =
      (((FlagSet.textsOf "W" (givens ++ later)).filterMap warning.verdict).getLast?).getD false := by
  obtain ⟨bare, unnamed, switches⟩ := commandFlags_fresh
  obtain ⟨on, switch⟩ := first.isBool (switches warning)
  have run := first.trans rest
  have start : { commandFlags with operands := [] } = commandFlags := by
    rw [← bare]
  obtain ⟨operands, left⟩ : ∃ operands, (commandFlags.parse arguments).set = { last with operands } := by
    rw [FlagSet.parse, start]
    rcases whole with rfl | ⟨operands, rfl⟩
    · rw [run.parseFrom_eq]
      exact ⟨last.operands, rfl⟩
    · rw [run.parseFrom_append, FlagSet.parseFrom, FlagSet.meaning_eq_terminator_iff.mpr rfl]
      exact ⟨_, rfl⟩
  have chosen := settingsOf_parse started
  rw [left] at chosen
  have off := off_of_reads switch rest kept
  have words := run.list unnamed
  rw [hasWarning_settingsOf chosen]
  exact hasWarning_switched { last with operands } off words

/-- The flags with a text taken over. -/
def given (set : FlagSet) (flag text : String) : FlagSet := (set.assign flag text).toOption.getD set

theorem step_given {set : FlagSet} (means : set.meaning argument = .assign flag text)
    (accepted : (set.assign flag text).isOk = true) :
    FlagSet.Step set [argument] (some (flag, text)) (given set flag text) := by
  refine .attached means ?_
  unfold given
  cases assigned : set.assign flag text with
  | error error => rw [assigned] at accepted; cases accepted
  | ok next => rfl

/-- The switch for off stands between words for all warnings and before the switch for on. -/
theorem warning_off_unless_named_amid :
    (startSettings? ["-Wall", "-Wno-extra", "-Wno-all", "-Wextra", "--", "a.json"] { number := 2026 }).map
      (·.hasWarning .extra) = some false := by
  have first : FlagSet.Reads commandFlags ["-Wall"] [("W", "all")] (given commandFlags "W" "all") :=
    .cons (step_given (by decide +kernel) (by decide +kernel)) .nil
  have rest : ∃ last, FlagSet.Reads (given commandFlags "W" "all") ["-Wno-extra", "-Wno-all", "-Wextra"]
      [("Wno-extra", ""), ("W", "no-all"), ("Wextra", "")] last :=
    ⟨_, .cons (step_given (by decide +kernel) (by decide +kernel))
      (.cons (step_given (by decide +kernel) (by decide +kernel))
        (.cons (step_given (by decide +kernel) (by decide +kernel)) .nil))⟩
  obtain ⟨last, rest⟩ := rest
  have starts : (startSettings? ["-Wall", "-Wno-extra", "-Wno-all", "-Wextra", "--", "a.json"]
    { number := 2026 }).isSome = true := by decide +kernel
  obtain ⟨settings, started⟩ := Option.isSome_iff_exists.mp starts
  have kept : ∀ text, ("Wno-extra", text) ∈ [("Wno-extra", ""), ("W", "no-all"), ("Wextra", "")] →
      Value.bool? text ≠ some false := by
    intro text mem
    obtain rfl : text = "" := by simpa using mem
    decide +kernel
  rw [started, Option.map_some,
    warning_off_unless_named .extra started first rest (.inr ⟨["a.json"], rfl⟩) kept]
  decide +kernel

/-- The switch for off does not win over a word for all warnings, whichever comes last. -/
theorem warning_named_although_off :
    (startSettings? ["-Wno-extra", "-Wall", "a.json"] { number := 2026 }).map (·.hasWarning .extra) =
      some true ∧
    (startSettings? ["-Wall", "-Wno-extra", "a.json"] { number := 2026 }).map (·.hasWarning .extra) =
      some true := by
  decide +kernel

end Command
end Nasm64
