import Nasm64.Proofs.Address.Place

/-! Nodes that are read at the place their code comes to. -/
namespace Nasm64

open Lower Register Machine

theorem Ty.registerSize_of_isScalar {ty : Ty} (scalar : ty.isScalar = true) :
    ty.registerSize = ty.size.toInt := by
  cases ty with
  | prim primitive => rfl
  | pointer dst => rfl
  | _ => cases scalar

theorem Ty.isArray_of_isScalar {ty : Ty} (scalar : ty.isScalar = true) : ty.isArray = false := by
  cases ty with
  | array length element => cases scalar
  | _ => rfl

/-- What is in memory where a computation comes to. -/
abbrev Outcomes.loaded (outcomes : Outcomes) (ty : Ty) : Outcomes :=
  outcomes.bind fun place => .word fun machine => machine.memory.load place ty.size.toInt.toNat

namespace Lower

variable {env : Env} {w : World} {frame next : Frame} {m : Machine}

structure Frame.Destines (frame : Frame) (ty : Ty) (target : Register) : Prop where
  pooled : target.family ∈ Register.poolFamilies ty.isFloat
  width : target.size = ty.registerSize
  innermost : ∀ top, frame.held.head? = some top → top.isFloat = ty.isFloat →
    target.family = top.family

theorem destination_destines (pooled : frame.Pooled)
    (run : Yields (destination pos ty) env frame target next) :
    frame.Kept next ∧ frame.Destines ty target := by
  obtain ⟨kept, _, _, width⟩ := destination_receives pooled.ordinary run
  refine ⟨kept, ?_, width, fun top head same => destination_innermost run head same⟩
  rcases yields_destination.mp run with ⟨top, head, same, rfl, _⟩ | ⟨_, found, _⟩
  · obtain ⟨isFloat, among⟩ := pooled top (List.mem_of_mem_head? head)
    rw [← same]
    rwa [show top.isFloat = isFloat from mem_poolFamilies_isFloat among]
  · exact (Frame.free_fresh found).pooled

theorem Frame.Destines.working (destines : frame.Destines ty dst) (scalar : ty.isScalar = true) :
    dst.Working ty.isFloat :=
  ⟨List.mem_cons_of_mem _ destines.pooled, by rw [destines.width]; exact Ty.inPool_of_isScalar scalar⟩

/-- A fragment for a scalar in memory: its operand, or code that moves it to a register. -/
inductive Frame.Fetches (frame : Frame) (ty : Ty) (address : Address) : Code → Lowered → Prop
  | operand : Fetches frame ty address [] (.inline (.mem ty.registerSize address))
  | register {code : Code} {target : Register} (destines : frame.Destines ty target) :
    Fetches frame ty address code (.value (code ++ move target (.mem ty.registerSize address)) target)

/-- Fragments that read some number of bytes of memory. -/
def ReadsBytes (size : Int) : Lowered → Prop
  | .inline (.mem width _) => width = size
  | .value code target =>
    target.size = size ∧ ∃ before address, code = before ++ move target (.mem size address)
  | _ => False

theorem Frame.Fetches.readsBytes {ty : Ty} (fetches : frame.Fetches ty addr code frag)
    (scalar : ty.isScalar = true) : ReadsBytes ty.size.toInt frag := by
  rw [← Ty.registerSize_of_isScalar scalar]
  cases fetches with
  | operand => rfl
  | register destines => exact ⟨destines.width, code, addr, rfl⟩

/-- What a fragment stands for when it is used: an address, the content of memory, or of a register
after its code has run. -/
def outcome? (world : World) (machine : Machine) : Lowered → Option (BitVec 64 × Machine)
  | .inline (.place address) => some (machine.address world address, machine)
  | .inline (.mem size address) =>
    some (machine.memory.load (machine.address world address) size.toNat, machine)
  | .value code register => (machine.run world code).map fun after => (after.view register, after)
  | _ => none

/-- A fragment stands for what a computation comes to. -/
def Frame.Denotes (frame : Frame) (env : Env) (world : World) (weight : Nat) (outcomes : Outcomes)
    (fragment : Lowered) : Prop :=
  ∀ machine : Machine, Sound env frame.depth weight fragment.code → machine.Clear fragment.code →
    outcomes machine (outcome? world machine fragment)

/-- The value of a place: an array is its address, and a scalar what is there. -/
def Frame.Loads (frame : Frame) (env : Env) (world : World) (weight : Nat) (ty : Ty)
    (outcomes : Outcomes) (fragment : Lowered) : Prop :=
  ∀ machine : Machine, Sound env frame.depth weight fragment.code → machine.Clear fragment.code →
    if ty.isArray then outcomes machine (outcome? world machine fragment)
    else ReadsBytes ty.size.toInt fragment ∧ outcomes.loaded ty machine (outcome? world machine fragment)

theorem move_settles (ord : dst.family.isOrdinary = true)
    (ran : m.run w (move dst src) = some after) : m.Settles after := by
  have single : ∀ {mn : Mnemonic}, mn ≠ .xchg →
      m.run w [.binary mn (.reg dst) src] = some after →
      m.Settles after := by
    intro mn plain ran
    simp only [run, Option.bind_eq_some_iff] at ran
    obtain ⟨_, stepped, ⟨⟩⟩ := ran
    exact .of_agrees (binary_step_retains ord plain stepped)
  unfold move at ran
  split at ran
  · exact single (floatMove_ne_xchg _) ran
  · exact single (by decide) ran

theorem moved_word {ty : Ty} {dst : Register} {outcomes : Outcomes} (scalar : ty.isScalar = true)
    (working : dst.Working ty.isFloat) (width : dst.size = ty.registerSize)
    (come : outcomes m ((m.run w code).map fun after => (after.address w addr, after))) :
    outcomes.loaded ty m ((m.run w (code ++ move dst (.mem ty.registerSize addr))).map fun after =>
      (after.view dst, after)) := by
  apply Outcomes.bind_run come
  intro mid _
  have found : mid.content ty.isFloat w dst.size (.mem ty.registerSize addr) =
      some (mid.memory.load (mid.address w addr) ty.registerSize.toNat) := by
    rw [width]
    exact content_mem ty.isFloat w mid ty.registerSize addr
  obtain ⟨after, ran, sets⟩ := move_runs w mid working found
  refine ⟨after, move_settles working.ordinary ran, ?_⟩
  rw [ran, Option.map_some, sets.view, ← Ty.registerSize_of_isScalar scalar]

theorem Frame.Fetches.loaded {ty : Ty} {outcomes : Outcomes} (scalar : ty.isScalar = true)
    (fetches : frame.Fetches ty addr code frag)
    (come : outcomes m ((m.run w code).map fun after => (after.address w addr, after))) :
    outcomes.loaded ty m (outcome? w m frag) := by
  cases fetches with
  | operand =>
    refine .inr ⟨_, m, come, m, .refl m, ?_⟩
    rw [← Ty.registerSize_of_isScalar scalar]
    rfl
  | register destines =>
    exact moved_word scalar (destines.working scalar) destines.width come

end Lower

namespace Lowering

variable {node : Lowering} {env : Env} {w : World} {scope : List (String × Variable)}
  {weight : Nat} {outcomes : Outcomes} {frame next : Frame} {frag : Lowered}

/-- Wherever a node is lowered among some variables, the code of its place comes to where it is. -/
structure Reaches (node : Lowering) (env : Env) (world : World) (scope : List (String × Variable))
    (weight : Nat) (outcomes : Outcomes) : Prop where
  brackets : node.Brackets env weight
  leads : ∀ {hint : Option Register} {frame next : Frame} {code : Code} {located : Located},
    frame.scope = scope → frame.Pooled → frame.Lends hint →
    Yields (node.place hint) env frame (code, located) next →
    frame.Leads env world weight outcomes code located next

def Fetched (frame : Frame) (env : Env) (world : World) (weight : Nat) (ty : Ty)
    (outcomes : Outcomes) (fragment : Lowered) : Prop :=
  ∃ code address, frame.Fetches ty address code fragment ∧
    frame.Comes env world weight outcomes code (·.address world address)

theorem Reaches.load_fetched (reaches : node.Reaches env w frame.scope weight outcomes)
    (pooled : frame.Pooled) (scalar : node.type.isScalar = true)
    (run : Yields node.load env frame frag next) :
    Fetched frame env w weight node.type outcomes frag := by
  rcases yields_load run with ⟨array, _⟩ | ⟨_, _, tgt, start, chosen, code, located, after, placed,
    kind⟩
  · cases array.symm.trans (Ty.isArray_of_isScalar scalar)
  · obtain ⟨kept, destines⟩ := destination_destines pooled chosen
    have held : (start.hold tgt).Pooled := (pooled.kept kept).hold destines.pooled
    have lends : (start.hold tgt).Lends (baseHint tgt) := by
      intro r given
      unfold baseHint at given
      split at given
      · cases given
      · next general =>
        cases given
        refine ⟨?_, Frame.hold_inUse⟩
        have pooled := destines.pooled
        rwa [← mem_poolFamilies_isFloat pooled,
          show tgt.family.isFloat = false from eq_false_of_ne_true general] at pooled
    have leads := reaches.leads (by simp [kept.scope]) held lends placed
    have depth : (start.hold tgt).depth = frame.depth := by simp [kept.depth]
    rcases kind with ⟨plain, rfl, _⟩ | ⟨_, rfl, _⟩
    · refine ⟨[], located.address, .operand, fun m sound clear => ?_⟩
      have come := leads.comes m
      rw [leads.plain plain, depth] at come
      exact come sound clear
    · refine ⟨code, located.address, .register destines, fun m sound clear => ?_⟩
      exact leads.comes m (depth ▸ sound) clear

theorem Fetched.loads {ty : Ty} (fetched : Fetched frame env w weight ty outcomes frag)
    (scalar : ty.isScalar = true) : frame.Loads env w weight ty outcomes frag := by
  intro m sound clear
  obtain ⟨code, addr, fetches, comes⟩ := fetched
  rw [if_neg (ne_true_of_eq_false (Ty.isArray_of_isScalar scalar))]
  refine ⟨fetches.readsBytes scalar, fetches.loaded scalar ?_⟩
  cases fetches with
  | operand => exact comes m sound clear
  | register destines => exact comes m sound.left clear.left

theorem Fetched.settled {ty : Ty} {target : Register}
    (fetched : Fetched (frame.push target) env w weight ty outcomes frag)
    (pointer : ty.isPointer = true) (among : target.family ∈ poolFamilies false)
    (width : target.size = 8) :
    frame.Comes env w weight (outcomes.bind fun place => .word fun m =>
      m.memory.load place 8) (settle frag target).code (·.reg target.family) := by
  intro m sound clear
  obtain ⟨code, addr, fetches, comes⟩ := fetched
  cases ty with
  | pointer content =>
    have settled : (settle frag target).code =
        code ++ move target (.mem (Ty.pointer content).registerSize addr) := by
      cases fetches with
      | operand => rfl
      | @register _ chosen destines =>
        have fam : chosen.family = target.family :=
          destines.innermost target rfl (mem_poolFamilies_isFloat among)
        have same : chosen = target := by
          cases chosen
          cases target
          cases fam
          cases destines.width
          cases width
          rfl
        subst same
        simp [settle, aliases, Fragment.code]
    have working : target.Working false :=
      .of_width (List.mem_cons_of_mem _ among) (.inr (.inr (.inr width)))
    have scalar : (Ty.pointer content).isScalar = true := rfl
    have bytes : (Ty.pointer content).size.toInt.toNat = 8 := rfl
    rw [settled] at sound clear ⊢
    have moved := moved_word scalar working width (comes m sound.left clear.left)
    simpa only [Outcomes.loaded, bytes, Machine.view, width, show (8 : Int).toNat = 8 from rfl,
      Word.low_eight] using moved
  | _ => cases pointer

theorem Points.of_fetched (brackets : node.Brackets env weight) (ptr : node.type.isPointer = true)
    (fetched : ∀ {frame next : Frame} {frag : Lowered}, frame.scope = scope → frame.Pooled →
      Yields node.value env frame frag next → Fetched frame env w weight node.type outcomes frag) :
    node.Points env w scope weight (outcomes.bind fun place => .word fun m =>
      m.memory.load place 8) where
  brackets := brackets
  comes := by
    intro frame next dst code visible pooled among width run
    obtain ⟨_, inner, after, valued, _, rfl, _⟩ := yields_into.mp run
    exact (fetched (by simp [visible]) (pooled.push among) valued).settled ptr among width

/-- The registers of an address are told apart by their names. -/
theorem family_eq_of_name {first second : Register} (left : first.family ∈ poolFamilies false)
    (right : second.family ∈ poolFamilies false) (wide : first.size = 8)
    (also : second.size = 8) (named : first.name = second.name) : first.family = second.family := by
  have distinct : ∀ first ∈ poolFamilies false, ∀ second ∈ poolFamilies false,
      (⟨first, 8⟩ : Register).name = (⟨second, 8⟩ : Register).name → first = second := by decide
  obtain ⟨first, _⟩ := first
  obtain ⟨second, _⟩ := second
  cases wide
  cases also
  exact distinct first left second right named

theorem lea_runs (w : World) (m : Machine) (addr : Address) (working : dst.Working false)
    (width : dst.size = 8) :
    ∃ after, m.run w [.lea dst addr] = some after ∧ m.Settles after ∧
      after.view dst = m.address w addr := by
  have computed : m.general w .lea dst (.place addr) =
      some (m.address w addr, m.flags) := by
    simp [general, width]
  have stepped := step_general w m working (by decide) computed
  refine ⟨_, run_singleton stepped, ?_, ?_⟩
  · exact .of_agrees (binary_step_retains working.ordinary (by decide) stepped)
  · rw [Machine.view, width]
    exact Word.low_eight.trans (if_pos rfl)

theorem settling_runs {addr : Address} {dst : Register} (w : World) (m : Machine)
    (anchors : frame.Anchors addr) (inside : addr.inRegisters = true)
    (among : dst.family ∈ poolFamilies false) (width : dst.size = 8) :
    ∃ after, m.run w (if isDirect addr dst then [] else [.lea dst addr]) = some after ∧
      m.Settles after ∧ after.view dst = m.address w addr := by
  by_cases direct : isDirect addr dst = true
  · rw [if_pos direct]
    refine ⟨m, rfl, .refl m, ?_⟩
    simp only [isDirect, Bool.and_eq_true, beq_iff_eq, Option.isNone_iff_eq_none] at direct
    obtain ⟨⟨named, still⟩, none⟩ := direct
    obtain ⟨base, based, rfl | pins⟩ := anchors.base
    · simp [Address.inRegisters, based, none] at inside
    · rw [based] at named
      have same := family_eq_of_name pins.pooled among pins.width width named
      simp [Machine.view, width, Machine.address, based, none, still, Machine.start, same]
  · rw [if_neg direct]
    exact lea_runs w m addr
      (.of_width (List.mem_cons_of_mem _ among) (.inr (.inr (.inr width)))) width

section

variable (reaches : node.Reaches env w frame.scope weight outcomes) (lasting : outcomes.Lasting)
  (pooled : frame.Pooled)

include reaches lasting pooled

/-- The address of a place is its operand, or is left in a register. -/
theorem Reaches.address_denotes (run : Yields node.address env frame frag next) :
    frame.Denotes env w weight outcomes frag := by
  intro m sound clear
  obtain ⟨tgt, start, chosen, code, located, after, placed, kind⟩ := yields_address run
  obtain ⟨kept, destines⟩ := destination_destines pooled chosen
  have held : (start.hold tgt).Pooled := (pooled.kept kept).hold destines.pooled
  have lends : (start.hold tgt).Lends (some tgt) := by
    rintro _ ⟨⟩
    exact ⟨destines.pooled, Frame.hold_inUse⟩
  have leads := reaches.leads (by simp [kept.scope]) held lends placed
  have depth : (start.hold tgt).depth = frame.depth := by simp [kept.depth]
  have comes := leads.comes m
  rw [depth] at comes
  rcases kind with ⟨plain, rfl, _⟩ | ⟨inside, rfl, _⟩
  · rw [leads.plain plain] at comes
    exact comes sound clear
  · have width : tgt.size = 8 := destines.width
    replace comes := comes sound.left clear.left
    show outcomes m ((m.run w _).map fun after => (after.view tgt, after))
    rw [run_append]
    cases ran : m.run w code with
    | none => rwa [ran] at comes
    | some mid =>
      rw [ran] at comes
      obtain ⟨after, loaded, settles, content⟩ := settling_runs w mid leads.anchors inside
        destines.pooled width
      rw [Option.bind_some, loaded, Option.map_some, content]
      exact lasting comes settles

theorem Reaches.decay_denotes (run : Yields node.decay env frame frag next) :
    frame.Denotes env w weight outcomes frag := by
  intro m sound clear
  obtain ⟨inner, mid, addressed, kind⟩ := yields_decay run
  have comes := reaches.address_denotes lasting pooled addressed m
  rcases kind with ⟨operand, tgt, rfl, chosen, rfl⟩ | ⟨_, rfl, _⟩
  · -- the operand is a frame slot, which needs no code before it is loaded
    have kept := (reaches.brackets.address_produces pooled.ordinary addressed).kept
    obtain ⟨_, destines⟩ := destination_destines (pooled.kept kept) chosen
    obtain ⟨_, _, _, _, located, _, _, ⟨_, same, _⟩ | ⟨_, same, _⟩⟩ := yields_address addressed
    · cases same
      obtain ⟨after, ran, settles, content⟩ := lea_runs w m located.address
        (destines.working rfl) destines.width
      show outcomes m ((m.run w [.lea tgt located.address]).map _)
      rw [ran, Option.map_some, content]
      exact lasting (comes (.inl fun _ => List.not_mem_nil) (by rintro _ ⟨_, ⟨⟩, _⟩)) settles
    · cases same
  · exact comes sound clear

/-- What a load gives: the address of an array, and the bytes of a scalar. -/
theorem Reaches.load_loads (run : Yields node.load env frame frag next) :
    frame.Loads env w weight node.type outcomes frag := by
  rcases yields_load run with ⟨array, decayed⟩ | ⟨_, scalar, _⟩
  · intro m sound clear
    rw [if_pos array]
    exact reaches.decay_denotes lasting pooled decayed m sound clear
  · exact (reaches.load_fetched pooled scalar run).loads scalar

end

end Lowering
end Nasm64
