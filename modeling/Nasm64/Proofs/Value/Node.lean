import Nasm64.Proofs.Emission.Expr
import Nasm64.Proofs.Machine.Floating
import Nasm64.Proofs.Value.Apply

/-! Nodes whose code computes a given value, and the consumers of such nodes. Integers and floats
differ in the registers they use and in what operators do, and share everything said here. -/
namespace Nasm64

open Lower Machine

def Line.isPlain : Line → Bool
  | unary .call _ => false
  | line => line.frameStore?.isNone

def Code.IsPlain (code : Code) : Prop := ∀ line ∈ code, line.isPlain = true

namespace Code.IsPlain

variable {first second : Code}

theorem nil : IsPlain [] := fun _ mem => nomatch mem

theorem cons (plain : line.isPlain = true) (rest : second.IsPlain) : IsPlain (line :: second) :=
  List.forall_mem_cons.mpr ⟨plain, rest⟩

theorem singleton (plain : line.isPlain = true) : IsPlain [line] := cons plain nil

theorem append (before : first.IsPlain) (after : second.IsPlain) : IsPlain (first ++ second) :=
  List.forall_mem_append.mpr ⟨before, after⟩

theorem storeless (plain : first.IsPlain) (base byte : BitVec 64) : ¬ first.storesTo base byte := by
  rintro ⟨line, mem, disp, size, stores, _⟩
  have quiet := plain line mem
  unfold Line.isPlain at quiet
  split at quiet
  · cases quiet
  · simp [stores] at quiet

theorem callless (plain : first.IsPlain) (label : String) : .call label ∉ first :=
  fun mem => nomatch plain _ mem

end Code.IsPlain

namespace Machine

variable {w : World} {m mid next : Machine} {scope : List (String × Variable)}
  {changes : Family → Prop}

/-- The states that plain code can lead to: the free stack and some registers have changed. -/
abbrev Near (changes : Family → Prop) (before after : Machine) : Prop :=
  Agrees (fun family => family.isOrdinary = true ∧ changes family)
    (before.isBelow (before.reg .rsp)) before after

/-- Bracketed code of plain lines leaves the frame alone. -/
theorem near_of_run (bracketed : Bracketed env depth none weight changes code)
    (plain : code.IsPlain) (ran : run w code m = some next) : Near changes m next := by
  refine (bracketed.agrees (.inl plain.callless)
    (fun byte stores => absurd stores (plain.storeless _ byte)) .none ran).mono (fun _ => id) ?_
  exact fun byte touched => touched.elim id fun stores => absurd stores (plain.storeless _ byte)

/-- A later state of the same frame. Some of the free stack may be taken, and what is outside of it
is as before. -/
structure Within (before after : Machine) : Prop where
  memory : ∀ byte, ¬ before.isBelow (before.reg .rsp) byte → after.memory byte = before.memory byte
  base : after.reg .rbp = before.reg .rbp
  floor : after.floor = before.floor
  stack : (after.reg .rsp).toNat ≤ (before.reg .rsp).toNat

namespace Within

theorem isBelow (within : Within m next) (below : next.isBelow (next.reg .rsp) byte) :
    m.isBelow (m.reg .rsp) byte :=
  ⟨within.floor ▸ below.1, Nat.lt_of_lt_of_le below.2 within.stack⟩

theorem trans (first : Within m mid) (second : Within mid next) : Within m next where
  memory := fun byte apart => (second.memory byte fun below => apart (first.isBelow below)).trans
    (first.memory byte apart)
  base := second.base.trans first.base
  floor := second.floor.trans first.floor
  stack := Nat.le_trans second.stack first.stack

theorem of_pushed (pushed : Pushed r m next) : Within m next where
  memory := fun _ apart => pushed.memory_apart apart
  base := pushed.registers _ (by simp)
  floor := pushed.floor
  stack := by
    have := pushed.toNat_stack
    omega

end Within

namespace Near

theorem within (near : Near changes m next) : Within m next where
  memory := near.memory
  base := near.stack.2
  floor := near.floor
  stack := Nat.le_of_eq (congrArg BitVec.toNat near.stack.1)

theorem room (near : Near changes m next) : next.room = m.room := by
  rw [Machine.room, Machine.room, near.stack.1, near.floor]

theorem view (near : Near changes m next) (kept : ¬ changes r.family) : next.view r = m.view r := by
  rw [Machine.view, Machine.view, near.registers _ fun changed => kept changed.2]

end Near

def slotAddress (machine : Machine) (slot : Variable) : BitVec 64 :=
  machine.reg .rbp - slot.offset.toBitVec

def local? (machine : Machine) (scope : List (String × Variable)) (name : String) :
    Option (BitVec 64) := do
  let slot ← scope.lookup name
  if slot.type.isScalar then some (machine.memory.load (machine.slotAddress slot) slot.type.bytes)
  else none

theorem local?_of_found (found : scope.lookup name = some slot)
    (scalar : slot.type.isScalar = true) :
    m.local? scope name = some (m.memory.load (m.slotAddress slot) slot.type.bytes) := by
  simp [local?, found, scalar]

/-- The scalar variables in scope are not on the free stack. -/
def Shelters (machine : Machine) (scope : List (String × Variable)) : Prop :=
  ∀ {name slot}, scope.lookup name = some slot → slot.type.isScalar = true →
    ∀ byte, Memory.covers (machine.slotAddress slot) slot.type.bytes byte →
      ¬ machine.isBelow (machine.reg .rsp) byte

/-- The variables are not on the free stack either, and booleans hold zero or one. -/
structure Hosts (machine : Machine) (scope : List (String × Variable)) : Prop where
  shelters : machine.Shelters scope
  boolean : ∀ {name slot}, scope.lookup name = some slot → slot.type.isBool = true →
    machine.local? scope name = some 0 ∨ machine.local? scope name = some 1

theorem Within.local? (within : Within m next) (shelters : m.Shelters scope) :
    next.local? scope = m.local? scope := by
  funext name
  unfold Machine.local?
  cases found : scope.lookup name with
  | none => rfl
  | some slot =>
    cases scalar : slot.type.isScalar with
    | false => simp [scalar]
    | true =>
      have same : next.slotAddress slot = m.slotAddress slot := by
        rw [slotAddress, slotAddress, within.base]
      have short : slot.type.bytes < 2 ^ 64 := by
        have := Ty.bytes_le scalar
        omega
      have loaded : next.memory.load (m.slotAddress slot) slot.type.bytes =
          m.memory.load (m.slotAddress slot) slot.type.bytes :=
        Memory.load_congr (fun byte covered => within.memory byte (shelters found scalar byte covered))
          short
      simp [scalar, same, loaded]

theorem Within.shelters (within : Within m next) (shelters : m.Shelters scope) :
    next.Shelters scope := by
  intro name slot found scalar byte covered below
  rw [slotAddress, within.base] at covered
  exact shelters found scalar byte covered (within.isBelow below)

theorem Within.hosts (within : Within m next) (hosts : m.Hosts scope) : next.Hosts scope where
  shelters := within.shelters hosts.shelters
  boolean := by
    intro name slot found isBool
    rw [within.local? hosts.shelters]
    exact hosts.boolean found isBool

end Machine

/-- A class of values, and what code relies on while it computes them. -/
structure Ground where
  float : Bool
  world : World
  holds : Machine → Prop
  steady : ∀ {machine next}, holds machine → machine.Within next → holds next

abbrev Meaning := Machine → Option (BitVec 64)

def Ground.Fixes (ground : Ground) (meaning : Meaning) : Prop :=
  ∀ {machine next}, ground.holds machine → machine.Within next → meaning next = meaning machine

namespace Lower

variable {ground : Ground} {weight : Nat} {top : Family} {size : Int} {meaning : Meaning}
  {frag : Lowered}

/-- Running code leaves a value in a register, when the stack has room. -/
def Leaves (ground : Ground) (weight : Nat) (meaning : Meaning) (code : Code) (register : Register) :
    Prop :=
  ∀ (machine : Machine) (value : BitVec 64), ground.holds machine → weight ≤ machine.room →
    meaning machine = some value →
    ∃ after, machine.run ground.world code = some after ∧ after.view register = value

/-- A fragment stands for a value: a constant, a fixed place in memory, or code that leaves the value
in a family. -/
inductive Delivers (ground : Ground) (weight : Nat) (top : Family) (size : Int) (meaning : Meaning) :
    Lowered → Prop
  | constant {value : Int64} (general : ground.float = false)
    (means : ∀ machine result, ground.holds machine → meaning machine = some result →
      Word.low size.toNat value.toBitVec = result) :
    Delivers ground weight top size meaning (.inline (.imm value))
  | memory {address : Address} (fixed : address.IsFixed)
    (means : ∀ machine result, ground.holds machine → meaning machine = some result →
      machine.memory.load (machine.address ground.world address) size.toNat = result) :
    Delivers ground weight top size meaning (.inline (.mem size address))
  | computed {code : Code} (plain : code.IsPlain)
    (leaves : Leaves ground weight meaning code ⟨top, size⟩) :
    Delivers ground weight top size meaning (.value code ⟨top, size⟩)

theorem content_mem (float : Bool) (w : World) (m : Machine) (size : Int) (addr : Address) :
    m.content float w size (.mem size addr) =
      some (m.memory.load (m.address w addr) size.toNat) := by
  cases float <;> simp [Machine.content, Machine.read, Machine.fetch]

namespace Delivers

section

variable (delivers : Delivers ground weight top size meaning frag)

include delivers

theorem plain : frag.code.IsPlain := by
  cases delivers with
  | constant | memory => exact .nil
  | computed plain => exact plain

theorem shaped : frag.shape ≠ .effect := by
  cases delivers <;> simp [Fragment.shape]

theorem results (mem : fam ∈ frag.results) : fam = top := by
  cases delivers with
  | constant | memory => cases mem
  | computed => exact List.mem_singleton.mp mem

theorem content (opnd : Operand) (inline : frag = .inline opnd) (m : Machine) (value : BitVec 64)
    (holds : ground.holds m) (meant : meaning m = some value) :
    m.content ground.float ground.world size opnd = some value := by
  cases delivers with
  | constant general means =>
    cases inline
    rw [general]
    exact congrArg some (means m value holds meant)
  | memory fixed means =>
    cases inline
    exact (content_mem ..).trans (congrArg some (means m value holds meant))
  | computed => cases inline

theorem reads (working : (⟨top, size⟩ : Register).Working ground.float) (apart : top ≠ work) :
    ∃ opnd, frag.operand? .reg = some opnd ∧ opnd.Reads size work ground.float ∧
      ∀ (m : Machine) (value : BitVec 64), ground.holds m → weight ≤ m.room →
      meaning m = some value → ∃ after, m.run ground.world frag.code = some after ∧
      after.content ground.float ground.world size opnd = some value := by
  have inline := delivers.content
  cases delivers with
  | @constant constant general means =>
    exact ⟨_, rfl, general ▸ .constant constant, fun m value holds _ meant =>
      ⟨m, rfl, inline _ rfl m value holds meant⟩⟩
  | memory fixed means =>
    exact ⟨_, rfl, .memory fixed, fun m value holds _ meant =>
      ⟨m, rfl, inline _ rfl m value holds meant⟩⟩
  | computed plain leaves =>
    refine ⟨_, rfl, .register working rfl apart, ?_⟩
    intro m value holds room meant
    obtain ⟨after, ran, view⟩ := leaves m value holds room meant
    exact ⟨after, ran,
      (content_reg ground.world after working).trans (congrArg some view)⟩

end

theorem settles (delivers : Delivers ground weight target.family target.size meaning frag)
    (working : target.Working ground.float) : ∃ code, settle frag target = .value code target ∧
    code.IsPlain ∧ Leaves ground weight meaning code target := by
  have loading : ∀ operand : Operand, (move target operand).IsPlain := by
    intro operand
    unfold move
    split <;> exact .singleton rfl
  have inline := delivers.content
  cases delivers with
  | constant | memory =>
    refine ⟨_, rfl, loading _, fun m value holds _ meant => ?_⟩
    obtain ⟨after, ran, sets⟩ := move_runs ground.world m working (inline _ rfl m value holds meant)
    exact ⟨after, ran, sets.view⟩
  | computed plain leaves =>
    exact ⟨_, by simp [settle, Register.aliases], plain, leaves⟩

end Delivers

/-- A run succeeds with a fragment that stands for a value in a register. -/
def Answers (x : Lower Lowered) (env : Env) (frame : Frame) (ground : Ground) (weight : Nat)
    (register : Register) (meaning : Meaning) : Prop :=
  ∃ fragment next, Yields x env frame fragment next ∧
    Delivers ground weight register.family register.size meaning fragment

theorem Answers.imp {start : Frame} (answers : Answers x env start ground weight r meaning)
    (runs : ∀ {frag next}, Yields x env start frag next → Yields y env frame frag next) :
    Answers y env frame ground weight r meaning := by
  obtain ⟨frag, next, run, delivers⟩ := answers
  exact ⟨frag, next, runs run, delivers⟩

end Lower

namespace Lowering

/-- The runs of a node succeed in frames whose registers it admits, the innermost of which waits for
its value, and give fragments that stand for that value. -/
structure Computes (node : Lowering) (env : Env) (ground : Ground) (scope : List (String × Variable))
    (weight : Nat) (meaning : Meaning) (admits : List Register → Prop) : Prop where
  brackets : node.Brackets env weight
  supported : Register.inPool ground.float node.type.registerSize = true
  fixed : ground.Fixes meaning
  working : ∀ {top held}, admits (top :: held) →
    top.family ∈ Register.staging ground.float :: Register.poolFamilies ground.float
  delivers : ∀ (frame : Frame) {top : Register} {held : List Register}, frame.scope = scope →
    frame.Ordinary → frame.held = top :: held → admits (top :: held) →
    ∃ fragment next, Yields node.value env frame fragment next ∧
      Delivers ground weight top.family node.type.registerSize meaning fragment

variable {node : Lowering} {env : Env} {ground : Ground} {frame : Frame}
  {scope : List (String × Variable)} {weight : Nat} {meaning : Meaning}
  {admits : List Register → Prop}

/-- A run that leaves the value of a node in a register, together with what that changes. -/
structure Loads (frame : Frame) (ground : Ground) (weight : Nat) (meaning : Meaning)
    (target : Register) (code : Code) (next : Frame) : Prop where
  kept : frame.Kept next
  plain : code.IsPlain
  runs : ∀ (machine : Machine) (value : BitVec 64), ground.holds machine → weight ≤ machine.room →
    meaning machine = some value →
    ∃ after, machine.run ground.world code = some after ∧
      machine.Near (frame.mayChange [target.family]) after ∧ after.view target = value

theorem Computes.into_loads (computes : node.Computes env ground scope weight meaning admits)
    (frame : Frame) (dst : Register) (visible : frame.scope = scope) (ord : frame.Ordinary)
    (admitted : admits (dst :: frame.held)) (size : dst.size = node.type.registerSize) :
    ∃ code next, Yields (node.into dst) env frame code next ∧
      Loads frame ground weight meaning dst code next := by
  have working : dst.Working ground.float :=
    ⟨computes.working admitted, size ▸ computes.supported⟩
  obtain ⟨frag, after, run, delivers⟩ := computes.delivers (frame.push dst) visible
    (ord.push working.ordinary) rfl admitted
  rw [← size] at delivers
  obtain ⟨code, settled, plain, leaves⟩ := delivers.settles working
  have into := yields_into.mpr ⟨working.valid, frag, after, run, delivers.shaped, rfl, rfl⟩
  rw [settled] at into
  have evaluates := computes.brackets.into_evaluates ord into working.ordinary
  refine ⟨code, after.pop, into, evaluates.kept, plain, ?_⟩
  intro m v holds room meant
  obtain ⟨final, ran, view⟩ := leaves m v holds room meant
  exact ⟨final, ran, near_of_run evaluates.bracketed plain ran, view⟩

/-- A run that gives the operand of a node, together with what its code changes. -/
structure Offers (frame : Frame) (ground : Ground) (weight : Nat) (size : Int) (meaning : Meaning)
    (top work : Family) (fragment : Lowered) (next : Frame) : Prop where
  kept : frame.Kept next
  plain : fragment.code.IsPlain
  shaped : fragment.shape ≠ .effect
  operand : ∃ operand, fragment.operand? .reg = some operand ∧
    operand.Reads size work ground.float ∧
    ∀ (machine : Machine) (value : BitVec 64), ground.holds machine → weight ≤ machine.room →
      meaning machine = some value →
      ∃ after, machine.run ground.world fragment.code = some after ∧
        machine.Near (frame.mayChange [top]) after ∧
        after.content ground.float ground.world size operand = some value

section

variable (computes : node.Computes env ground scope weight meaning admits)

include computes

theorem Computes.value_offers (frame : Frame) (visible : frame.scope = scope) (ord : frame.Ordinary)
    (innermost : frame.held = top :: held) (admitted : admits (top :: held))
    (apart : top.family ≠ work) :
    ∃ frag next, Yields node.value env frame frag next ∧
      Offers frame ground weight node.type.registerSize meaning top.family work frag next := by
  obtain ⟨frag, next, run, delivers⟩ := computes.delivers frame visible ord innermost admitted
  have pooled := computes.working admitted
  have working : (⟨top.family, node.type.registerSize⟩ : Register).Working ground.float :=
    ⟨pooled, computes.supported⟩
  have produces := computes.brackets.value ord run
  obtain ⟨opnd, found, reads, leaves⟩ := delivers.reads working apart
  refine ⟨frag, next, run, produces.kept, delivers.plain, delivers.shaped, opnd, found, reads,
    ?_⟩
  intro m v holds room meant
  obtain ⟨after, ran, read⟩ := leaves m v holds room meant
  have near := near_of_run produces.emits.bracketed delivers.plain ran
  refine ⟨after, ran, near.mono (fun family changed => ⟨changed.1, ?_⟩) (fun _ => id), read⟩
  exact Frame.mayChange_mono (.refl frame) (fun res mem =>
    Frame.mayChange_result (List.mem_singleton.mpr (delivers.results mem))) changed.2

theorem Computes.weaken (heavier : weight ≤ more) (narrower : ∀ held, fewer held → admits held) :
    node.Computes env ground scope more meaning fewer where
  brackets := computes.brackets.mono heavier
  supported := computes.supported
  fixed := computes.fixed
  working := fun admitted => computes.working (narrower _ admitted)
  delivers := by
    intro frame top held visible ord innermost admitted
    obtain ⟨frag, next, run, delivers⟩ := computes.delivers frame visible ord innermost
      (narrower _ admitted)
    refine ⟨frag, next, run, ?_⟩
    cases delivers with
    | constant general means => exact .constant general means
    | memory fixed means => exact .memory fixed means
    | computed plain leaves =>
      exact .computed plain fun m v holds room meant =>
        leaves m v holds (Int.le_trans (Int.ofNat_le.mpr heavier) room) meant

end

end Lowering

namespace Expr

@[simp] theorem lowering_isLeaf (expr : Expr) : expr.lowering.isLeaf = expr.isLeaf := by
  cases expr with
  | unary _ op => cases op <;> rfl
  | binary =>
    rw [lowering_binary]
    rfl
  | _ => rfl

end Expr
end Nasm64
