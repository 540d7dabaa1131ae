import Nasm64.Proofs.Passing.Lanes

/-! Calls, cut where their arguments change hands. At the call every argument is where the callee
expects it. -/
namespace Nasm64

open Lower

namespace Lower

variable {env : Env} {frame next : Frame} {count inner : Nat}

/-- The conversion of a float that travels as a double. -/
def promotion (source ty : Ty) : Code :=
  if ty.isFloat && ty.registerSize != (accumulatorFor source).size then
    [.binary .cvtss2sd (.reg (accumulatorFor source)) (.reg (accumulatorFor source))]
  else []

theorem accumulatorFor_size (ty : Ty) : (accumulatorFor ty).size = ty.registerSize := by
  unfold accumulatorFor
  split <;> rfl

theorem accumulatorFor_congr (isFloat : ty.isFloat = src.isFloat)
    (width : ty.registerSize = src.registerSize) : accumulatorFor ty = accumulatorFor src := by
  simp only [accumulatorFor, isFloat, width]

theorem stageCode_eq (travels : src.Travels ty) :
    stageCode i src ty = promotion src ty ++
      store (.mem ty.registerSize (argumentSlot i)) (accumulatorFor ty) := by
  simp only [stageCode, promotion]
  split
  · have resized : (accumulatorFor src).resize ty.registerSize = accumulatorFor ty := by
      simp only [accumulatorFor, travels.isFloat]
      split <;> rfl
    rw [resized]
    rfl
  · rename_i kept
    have width : ty.registerSize = src.registerSize := by
      cases float : ty.isFloat with
      | false => exact travels.width float
      | true => simpa [float, accumulatorFor_size] using kept
    rw [← accumulatorFor_congr travels.isFloat width, accumulatorFor_size]
    rfl

theorem promotion_bracketed {depth : Int64} {weight : Nat} (src ty : Ty) :
    Bracketed env depth none weight (fun _ => True) (promotion src ty) := by
  unfold promotion
  split
  · have converting : Quiet [(accumulatorFor src).family]
        [.binary .cvtss2sd (.reg (accumulatorFor src)) (.reg (accumulatorFor src))] :=
      .binary (by decide) (Family.isOrdinary_of_isVolatile (accumulatorFor_volatile src)) (by simp)
    exact converting.bracketed fun _ _ => trivial
  · exact .nil

/-- What a register can hold fits a slot. -/
theorem narrow_of_travels (travels : src.Travels ty) (valid : (accumulatorFor src).valid = true) :
    ty.registerSize.toNat ≤ 8 := by
  cases float : ty.isFloat with
  | true =>
    have scalar : ty.isScalar = true := by cases ty <;> first | rfl | cases float
    have narrow := scalar_narrow scalar
    omega
  | false =>
    have narrow := accumulatorFor_narrow valid
    rw [accumulatorFor_size, ← travels.width float] at narrow
    omega

end Lower

/-- The evaluation is the one of an argument, promoted if need be. -/
def Staging.Carries (staging : Staging) (env : Env) (argument : Lowering) : Prop :=
  ∃ start evaluation stop,
    Yields (argument.into (accumulatorFor argument.type)) env start evaluation stop ∧
      staging.evaluation = evaluation ++ promotion argument.type staging.type

namespace Lower

variable {env : Env} {frame next : Frame} {count inner : Nat}

theorem stageArguments_stagings (brackets : ∀ pair ∈ arguments, pair.1.Brackets env inner)
    (ordinary : frame.Ordinary) (travels : ∀ pair ∈ arguments, pair.1.type.Travels pair.2)
    (slots : i + arguments.length ≤ count)
    (run : Yields (stageArguments i arguments) env frame code next) :
    ∃ stagings : List Staging, code = stagings.flatMap Staging.code ∧
      stagings.length = arguments.length ∧ ∀ pos stage, stagings[pos]? = some stage →
      stage.index = i + pos ∧ stage.Fits env frame.depth inner count ∧
      ∃ argument, arguments[pos]? = some (argument, stage.type) ∧ stage.Carries env argument := by
  induction arguments generalizing i frame code next with
  | nil =>
    simp only [stageArguments, yields_pure] at run
    obtain ⟨rfl, rfl⟩ := run
    exact ⟨[], rfl, rfl, by simp⟩
  | cons pair rest ih =>
    obtain ⟨argument, ty⟩ := pair
    simp only [stageArguments, yields_bind, yields_pure, yields_stageArgument] at run
    obtain ⟨_, mid, ⟨evaluation, evaluated, rfl⟩, others, _, staged, rfl, rfl⟩ := run
    have evaluates := (brackets (argument, ty) (by simp)).into_evaluates ordinary evaluated
      (Family.isOrdinary_of_isVolatile (accumulatorFor_volatile argument.type))
    obtain ⟨valid, _⟩ := Lowering.yields_into.mp evaluated
    have here : argument.type.Travels ty := travels (argument, ty) (by simp)
    simp only [List.length_cons] at slots
    obtain ⟨stagings, rfl, length, each⟩ := ih (fun other mem => brackets other (by simp [mem]))
      (ordinary.kept evaluates.kept) (fun other mem => travels other (by simp [mem]))
      (by omega) staged
    refine ⟨⟨evaluation ++ promotion argument.type ty, ty, i⟩ :: stagings, ?_, by simp [length], ?_⟩
    · simp [Staging.code, Staging.storing, Staging.register, stageCode_eq here]
    · intro pos stage found
      cases pos with
      | zero =>
        simp only [List.getElem?_cons_zero, Option.some.injEq] at found
        subst found
        refine ⟨rfl, ⟨⟨fun _ => True, ?_⟩, narrow_of_travels here valid, by simp; omega⟩, argument, rfl, ?_⟩
        · exact (evaluates.bracketed.mono (Nat.le_refl _) fun _ _ => trivial).append
            (promotion_bracketed _ _)
        · exact ⟨frame, evaluation, mid, evaluated, rfl⟩
      | succ pos =>
        simp only [List.getElem?_cons_succ] at found
        obtain ⟨indexed, fits, carries⟩ := each pos stage found
        rw [evaluates.kept.depth] at fits
        exact ⟨by omega, fits, carries⟩

theorem lanePlace_register (listed : lane ∈ Lane.all) (decayed : ty.decay = ty)
    (placed : Call.lanePlace lane false ty = .ok place) :
    place = .register (lane.register ty) none ∧
      Register.inPool ty.isFloat ty.registerSize = true := by
  have lanes : ∀ lane ∈ Lane.all, lane.general.isFloat = false ∧
      Lane.find? lane.general = some ((Lane.all.idxOf lane), lane) ∧
      ∀ size, lane.general.hasView size = Register.inPool false size := by
    simp [Lane.all, Family.hasView, Register.inPool]
    decide
  obtain ⟨general, bound, views⟩ := lanes lane listed
  have size : ty.size.toInt = ty.registerSize := by
    rw [← decayed]
    exact ty.toInt_size_decay
  unfold Call.lanePlace Register.view at placed
  rw [size, views] at placed
  split at placed
  · rename_i supported
    simp only [bind, Except.bind] at placed
    cases float : ty.isFloat with
    | true =>
      have widths : ty.registerSize = 4 ∨ ty.registerSize = 8 := by
        simpa [Register.inPool] using Ty.float_inPool float
      have kept : (if ty.registerSize == 4 then (4 : Int) else 8) = ty.registerSize := by
        rcases widths with same | same <;> simp [same]
      simp only [float, if_true, Register.toFloat, Register.isFloat, general, Bool.false_eq_true,
        if_false, bound, kept, pure, Except.pure, Except.ok.injEq] at placed
      exact ⟨by simp [← placed, Lane.register, float], Ty.float_inPool float⟩
    | false =>
      simp only [float, Bool.false_eq_true, if_false, pure, Except.pure, Except.ok.injEq] at placed
      exact ⟨by simp [← placed, Lane.register, float], supported⟩
  · cases placed

/-- The slots of a method of the program load the lanes of its arguments. -/
theorem resolve_loads (decayed : ∀ ty ∈ types, ty.decay = ty)
    (resolved : Call.resolve types false = .ok slots) :
    slots.flatMap loadLane = Lane.loads 0 types ∧ Lane.Supports 0 types := by
  unfold Call.resolve at resolved
  generalize 0 = first at resolved ⊢
  induction types generalizing first slots with
  | nil =>
    cases resolved
    exact ⟨rfl, by simp [Lane.Supports]⟩
  | cons ty rest ih =>
    have here := decayed ty (by simp)
    simp only [List.zipIdx_cons, List.mapM_cons, bind, Except.bind, here] at resolved
    split at resolved
    · cases resolved
    · rename_i slot placed
      split at resolved
      · cases resolved
      · rename_i others mapped
        cases resolved
        obtain ⟨loads, supports⟩ := ih (fun other mem => decayed other (by simp [mem])) _ mapped
        cases found : Lane.all[first]? with
        | none =>
          simp only [found, Except.ok.injEq] at placed
          subst placed
          exact ⟨by simp [loadLane, loads, Lane.loads, Lane.load, found],
            .cons (fun lane looked => by simp [found] at looked) supports⟩
        | some lane =>
          simp only [found] at placed
          split at placed
          · rename_i place chosen
            obtain ⟨rfl, supported⟩ :=
              lanePlace_register (List.mem_of_getElem? found) here chosen
            cases placed
            exact ⟨by simp [loadLane, loads, Lane.loads, Lane.load, found, Lane.register],
              .cons (fun _ _ => supported) supports⟩
          · cases placed

end Lower

namespace Machine

variable {w : World} {m next : Machine}

theorem saved_of_run (ran : run w (saveCode saved) m = some next) :
    (next.reg .rsp).toNat ≤ (m.reg .rsp).toNat ∧ next.reg .rbp = m.reg .rbp ∧
      next.floor = m.floor := by
  induction saved generalizing m with
  | nil =>
    cases ran
    exact ⟨Nat.le_refl _, rfl, rfl⟩
  | cons r rest ih =>
    have shape : saveCode (r :: rest) = pushCode r ++ saveCode rest := rfl
    rw [shape, run_append, Option.bind_eq_some_iff] at ran
    obtain ⟨mid, here, there⟩ := ran
    have pushed := pushed_of_run here
    have stack := pushed.toNat_stack
    obtain ⟨lower, base, floor⟩ := ih there
    exact ⟨by omega, by rw [base, pushed.registers _ (by decide)], by rw [floor, pushed.floor]⟩

/-- Registers are saved and an area is reserved: the code inside finds its slots there. -/
theorem opening_hosts {env : Env} {depth : Int64} {count inner weight : Nat} {code : Code}
    {saved : List Register} (positive : 0 < env.stackAlignment.toInt) (natural : 0 ≤ depth.toInt)
    (bound : depth.toInt + weight < 2 ^ 63) (fits : inner + env.areaBound count ≤ weight)
    (clear : m.Clear code)
    (ran : run w (saveCode saved ++ [.binary .sub (.reg .stackPointer)
      (.imm (env.areaAt depth count))]) m = some next) : next.HasArea count (m.reg .rsp) code := by
  rw [run_append, Option.bind_eq_some_iff] at ran
  obtain ⟨mid, saving, reserving⟩ := ran
  simp only [run, Option.bind_eq_some_iff] at reserving
  obtain ⟨_, reserving, same⟩ := reserving
  cases same
  obtain ⟨lower, base, floor⟩ := saved_of_run saving
  obtain ⟨room, before⟩ := reserve?_eq reserving
  obtain ⟨_, opens, _⟩ := reserved_opens positive natural bound fits room before
  obtain ⟨spacious, slots⟩ := opens _ rfl
  have top : next.blockTop = mid.reg .rsp := by rw [before]; rfl
  have frame : next.reg .rbp = m.reg .rbp := by rw [← base, before]; rfl
  have ground : next.floor = m.floor := by rw [← floor, before]; rfl
  refine ⟨spacious, ?_, ?_⟩
  · rw [top] at slots
    simp only at slots
    omega
  · simp only [isBelow, frame, ground]
    exact clear

end Machine

/-- The code of a call: what comes before its arguments, its arguments, the loads of the lanes, and
what comes after it. -/
structure CallSite where
  opening : Code
  stagings : List Staging
  loading : Code
  label : String
  closing : Code

namespace CallSite

def setup (site : CallSite) : Code :=
  site.opening ++ (site.stagings.flatMap Staging.code ++ site.loading)

def code (site : CallSite) : Code := site.setup ++ .call site.label :: site.closing

def emitted (signature : Signature) (slots : List Call.Slot) (target : Option Register)
    (saved : List Register) (area : Int64) (stagings : List Staging) : CallSite where
  opening := saveCode saved ++ [.binary .sub (.reg .stackPointer) (.imm area)]
  stagings := stagings
  loading := slots.flatMap loadLane
  label := signature.label
  closing := resultCode signature.result target ++
    .binary .add (.reg .stackPointer) (.imm area) :: restoreCode saved

@[simp] theorem emitted_code (sig : Signature) (slots : List Call.Slot) (dst : Option Register)
    (saved : List Register) (area : Int64) (stagings : List Staging) :
    (emitted sig slots dst saved area stagings).code =
      saveCode saved ++ reservedCode area (areaCode sig slots dst (stagings.flatMap Staging.code))
      ++ restoreCode saved := by
  simp [code, setup, emitted, reservedCode, areaCode]

/-- Everything up to the evaluation of an argument. -/
def reaching (site : CallSite) (before : List Staging) (staging : Staging) : Code :=
  site.opening ++ (before.flatMap Staging.code ++ staging.evaluation)

/-- Once an argument is stored, its slot keeps its value whatever is evaluated after it, and at the
call it is where the callee expects it. -/
structure Passes (site : CallSite) (world : World) (machine : Machine) : Prop where
  kept : ∀ before staging after evaluated part later,
    site.stagings = before ++ staging :: after →
    machine.run world (site.reaching before staging) = some evaluated →
    part <+: after.flatMap Staging.code ++ site.loading →
    evaluated.run world (staging.storing ++ part) = some later →
    later.memory.load (Call.slotAddress (evaluated.reg .rsp) staging.index)
      staging.type.registerSize.toNat = evaluated.view staging.register
  arrives : ∀ before staging after atCall, site.stagings = before ++ staging :: after →
    machine.run world site.setup = some atCall →
    ∃ evaluated, machine.run world (site.reaching before staging) = some evaluated ∧
      atCall.argument (atCall.reg .rsp) staging.index staging.type =
        evaluated.view staging.register
  area : ∀ atCall, machine.run world site.setup = some atCall →
    (atCall.reg .rsp).toNat + 8 * site.stagings.length ≤ 2 ^ 64

theorem passes {m : Machine} {site : CallSite}
    (fits : ∀ stage ∈ site.stagings, stage.Fits env depth weight count)
    (indexed : ∀ (pos : Nat) (stage : Staging), site.stagings[pos]? = some stage →
      stage.index = pos ∧ types[pos]? = some stage.type)
    (sound : Sound env depth weight (site.stagings.flatMap Staging.code))
    (loading : site.loading = Lane.loads 0 types) (supports : Lane.Supports 0 types)
    (few : site.stagings.length ≤ count)
    (hasArea : ∀ opened, m.run w site.opening = some opened →
      opened.HasArea count top (site.stagings.flatMap Staging.code)) : site.Passes w m :=
    by
  have silent : ∀ m byte, Machine.Spares w site.loading m byte :=
    loading ▸ Lane.loads_spare supports
  have keeps : ∀ before stage after evaluated opened,
      site.stagings = before ++ stage :: after → m.run w site.opening = some opened →
      opened.run w (before.flatMap Staging.code ++ stage.evaluation) = some evaluated →
      opened.Beside evaluated ∧ ∀ part later, part <+: after.flatMap Staging.code ++ site.loading →
        evaluated.run w (stage.storing ++ part) = some later →
        later.memory.load (Call.slotAddress (opened.reg .rsp) stage.index)
          stage.type.registerSize.toNat = evaluated.view stage.register := by
    intro before stage after evaluated opened split opening ran
    refine Staging.slot_keeps_value (split ▸ fits) ?_ (split ▸ sound) (split ▸ hasArea opened opening)
      silent ran
    intro other mem
    obtain ⟨pos, listed⟩ := List.mem_iff_getElem?.mp mem
    have here := (indexed before.length stage (by simp [split])).1
    have there := (indexed (before.length + 1 + pos) other (by
      rw [split, List.getElem?_append_right (by omega)]
      simpa [show before.length + 1 + pos - before.length = pos + 1 by omega]
        using listed)).1
    omega
  constructor
  · intro before stage after evaluated part later split reached leads ran
    rw [reaching, Machine.run_append, Option.bind_eq_some_iff] at reached
    obtain ⟨opened, opening, reached⟩ := reached
    obtain ⟨beside, kept⟩ := keeps before stage after evaluated opened split opening reached
    rw [beside.stack]
    exact kept part later leads ran
  · intro before stage after atCall split ran
    have shape : site.setup = site.opening ++ ((before.flatMap Staging.code ++ stage.evaluation) ++
        ((stage.storing ++ after.flatMap Staging.code) ++ site.loading)) := by
      simp [setup, split, Staging.code]
    rw [shape, Machine.run_append, Option.bind_eq_some_iff] at ran
    obtain ⟨opened, opening, ran⟩ := ran
    rw [Machine.run_append, Option.bind_eq_some_iff] at ran
    obtain ⟨evaluated, reached, ran⟩ := ran
    rw [Machine.run_append, Option.bind_eq_some_iff] at ran
    obtain ⟨staged, storing, ran⟩ := ran
    refine ⟨evaluated, Machine.run_join opening reached, ?_⟩
    obtain ⟨beside, kept⟩ := keeps before stage after evaluated opened split opening reached
    have v := kept _ staged (List.prefix_append _ _) storing
    obtain ⟨indexed, typed⟩ := indexed before.length stage (by simp [split])
    rw [loading] at ran
    have passed := Lane.loads_pass supports ran typed
    have whole : opened.run w (site.stagings.flatMap Staging.code) = some staged := by
      rw [split]
      simpa [Staging.code] using Machine.run_join reached storing
    have level := Staging.all_beside fits sound (hasArea opened opening) whole
    rw [Nat.zero_add, ← indexed, level.stack] at passed
    exact passed.trans v
  · intro atCall ran
    rw [setup, Machine.run_append, Option.bind_eq_some_iff] at ran
    obtain ⟨opened, opening, ran⟩ := ran
    rw [Machine.run_append, Option.bind_eq_some_iff] at ran
    obtain ⟨staged, stage, ran⟩ := ran
    have level := Staging.all_beside fits sound (hasArea opened opening) stage
    have still := Lane.loads_beside supports (loading ▸ ran)
    rw [still.stack, level.stack]
    have slots := (hasArea opened opening).slots
    have bound := top.isLt
    omega

end CallSite

namespace Lower

variable {env : Env} {frame next : Frame}

theorem saved_depth (natural : 0 ≤ frame.depth.toInt)
    (bound : frame.depth.toInt + (weight + 8 * count : Nat) < 2 ^ 63) :
    (frame.saved count).depth.toInt = frame.depth.toInt + 8 * count := by
  have size : (Int64.ofNat (8 * count)).toInt = 8 * count := by
    rw [Int64.toInt_ofNat_of_lt (by omega)]
    omega
  simp only [Frame.saved]
  rw [Word.toInt_add (by omega) (by omega), size]

theorem resultTarget_kept (ord : frame.Ordinary)
    (run : Yields (resultTarget pos res) env frame dst next) : frame.Kept next := by
  rcases yields_resultTarget.mp run with ⟨_, _, rfl⟩ | ⟨_, r, _, given⟩
  · exact .refl _
  · exact (destination_receives ord given).1

section

variable (positive : 0 < env.stackAlignment.toInt) (natural : 0 ≤ frame.depth.toInt)

include positive natural

theorem emitCall_passes {signature : Signature} {arguments : List (Lowering × Ty)}
    {slots : List Call.Slot} {tgt : Option Register} {frag : Lowered} {inner weight : Nat}
    (bound : frame.depth.toInt + weight < 2 ^ 63)
    (fits : inner + env.areaBound arguments.length + 104 ≤ weight)
    (brackets : ∀ pair ∈ arguments, pair.1.Brackets env inner) (ordinary : frame.Ordinary)
    (travels : ∀ pair ∈ arguments, pair.1.type.Travels pair.2)
    (resolved : Call.resolve (arguments.map Prod.snd) false = .ok slots)
    (run : Yields (emitCall signature arguments slots tgt) env frame frag next) :
    ∃ site : CallSite, site.code = frag.code ∧ site.label = signature.label ∧
      site.stagings.length = arguments.length ∧
      (∀ (i : Nat) (stage : Staging), site.stagings[i]? = some stage → stage.index = i ∧
        ∃ argument, arguments[i]? = some (argument, stage.type) ∧ stage.Carries env argument) ∧
      ∀ w m, m.Clear frag.code → site.Passes w m := by
  obtain ⟨_, saved, live, area, reserved, stage, after, staged, rfl, _⟩ := yields_emitCall run
  have few : saved.length ≤ 13 := live ▸ frame.liveVolatile_length _
  have depth := saved_depth natural
    (by omega : frame.depth.toInt + ((weight - 104) + 8 * saved.length : Nat) < 2 ^ 63)
  obtain ⟨_, small, deeper, _⟩ := areaAt_aligned positive (by omega : 0 ≤ (frame.saved _).depth.toInt)
    (by omega : (frame.saved saved.length).depth.toInt + env.areaBound arguments.length < 2 ^ 63)
  have decayed : ∀ ty ∈ arguments.map Prod.snd, ty.decay = ty := by
    intro ty mem
    obtain ⟨pair, listed, rfl⟩ := List.mem_map.mp mem
    exact (travels pair listed).decayed
  obtain ⟨loads, supports⟩ := resolve_loads decayed resolved
  have inside : ((frame.saved saved.length).deepened area).Ordinary := ordinary
  obtain ⟨stagings, rfl, counted, each⟩ := stageArguments_stagings brackets inside travels
    (Nat.le_of_eq (Nat.zero_add _)) staged
  simp only [Nat.zero_add] at each
  refine ⟨.emitted signature slots tgt saved area stagings, by simp, rfl, counted, ?_, ?_⟩
  · intro i stage found
    obtain ⟨indexed, _, carries⟩ := each i stage found
    exact ⟨indexed, carries⟩
  · intro w m clear
    have stores : m.Clear (stagings.flatMap Staging.code) := by
      refine fun byte stored => clear byte ?_
      simp only [callFragment_code, reservedCode, areaCode, Code.storesTo_append]
      simp [stored]
    have fit : ∀ stage ∈ stagings, stage.Fits env ((frame.saved saved.length).deepened area).depth
        inner arguments.length := by
      intro stage mem
      obtain ⟨i, found⟩ := List.mem_iff_getElem?.mp mem
      exact (each i stage found).2.1
    have indexed : ∀ (i : Nat) (stage : Staging), stagings[i]? = some stage →
        stage.index = i ∧ (arguments.map Prod.snd)[i]? = some stage.type := by
      intro i stage found
      obtain ⟨indexed, _, argument, listed, _⟩ := each i stage found
      exact ⟨indexed, by simp [listed]⟩
    have sound : Sound env ((frame.saved saved.length).deepened area).depth inner
        (stagings.flatMap Staging.code) := by
      subst reserved
      exact .inr ⟨positive, by simp only [Frame.deepened]; omega⟩
    have room : (frame.saved saved.length).depth.toInt +
        (inner + env.areaBound arguments.length : Nat) < 2 ^ 63 := by omega
    exact CallSite.passes fit indexed sound loads supports (Nat.le_of_eq counted) fun opened opening =>
      Machine.opening_hosts positive (by omega) room (Nat.le_refl _) stores (reserved ▸ opening)

theorem lowerCall_passes {pos : Position} {name : String} {args : List Lowering} {frag : Lowered}
    {sig : Signature} {inner weight : Nat} (bound : frame.depth.toInt + weight < 2 ^ 63)
    (fits : inner + env.areaBound args.length + 104 ≤ weight)
    (brackets : ∀ arg ∈ args, arg.Brackets env inner) (ord : frame.Ordinary)
    (found : env.table.lookup name (args.map Lowering.type) = .ok sig)
    (internal : sig.isExternal = false)
    (run : Yields (lowerCall pos name args) env frame frag next) :
    ∃ site : CallSite, site.code = frag.code ∧ site.label = sig.label ∧
      site.stagings.length = args.length ∧
      (∀ (i : Nat) (stage : Staging), site.stagings[i]? = some stage → stage.index = i ∧
        (sig.argumentTypes (args.map Lowering.type))[i]? = some stage.type ∧
        ∃ arg, args[i]? = some arg ∧ stage.Carries env arg) ∧ ∀ w m, m.Clear frag.code →
      site.Passes w m := by
  obtain ⟨_, looked, _, _, types, named, slots, resolved, dst, start, chosen, emitted⟩ :=
    yields_lowerCall run
  rw [found] at looked
  cases looked
  have kept := resultTarget_kept ord chosen
  have length : types.length = args.length := by simp [named, Signature.argumentTypes]
  have paired : (args.zip types).length = args.length := by simp [length]
  have typed : (args.zip types).map Prod.snd = types := List.map_snd_zip (Nat.le_of_eq length)
  have travels : ∀ pair ∈ args.zip types, pair.1.type.Travels pair.2 := by
    intro pair mem
    obtain ⟨i, listed⟩ := List.mem_iff_getElem?.mp mem
    obtain ⟨given, typed⟩ := List.getElem?_zip_eq_some.mp listed
    exact Signature.argumentTypes_travel (by simp [given]) (named ▸ typed)
  rw [← kept.depth] at natural bound
  rw [← paired] at fits
  rw [internal, ← typed] at resolved
  obtain ⟨site, same, label, counted, each, passes⟩ := emitCall_passes positive natural bound fits
    (fun pair mem => brackets pair.1 (List.of_mem_zip mem).1) (ord.kept kept) travels
    resolved emitted
  refine ⟨site, same, label, counted.trans paired, fun i stage listed => ?_, passes⟩
  obtain ⟨indexed, arg, given, carries⟩ := each i stage listed
  obtain ⟨given, typed⟩ := List.getElem?_zip_eq_some.mp given
  exact ⟨indexed, named ▸ typed, arg, given, carries⟩

end

end Lower
end Nasm64
