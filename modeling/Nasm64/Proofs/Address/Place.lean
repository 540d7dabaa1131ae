import Nasm64.Proofs.Address.Semantics
import Nasm64.Proofs.Value.Binary

/-! Code that comes to where its address is. -/
namespace Nasm64

open Lower Machine Outcomes

namespace Machine

variable {w : World} {m middle next : Machine}

theorem Settles.refl (m : Machine) : m.Settles m := Agrees.refl m

theorem Settles.trans (first : m.Settles middle) (second : middle.Settles next) :
    m.Settles next := Agrees.trans first second

theorem Settles.of_agrees {changes : Family → Prop}
    (agrees : Agrees (fun fam => fam.isOrdinary = true ∧ changes fam) (fun _ => False) m next) :
    m.Settles next :=
  agrees.mono (fun _ change => change.1) fun _ touch => touch

theorem address_congr {address : Address} {base : Register} (based : address.base = .reg base)
    (same : next.reg base.family = m.reg base.family)
    (indexed : ∀ r, address.index = some r → next.reg r.family = m.reg r.family) :
    next.address w address = m.address w address := by
  unfold Machine.address
  rw [based]
  cases index : address.index with
  | none => simp [start, same]
  | some r => simp [start, same, indexed r index]

theorem Clear.left (clear : m.Clear (first ++ second)) : m.Clear first := fun byte stores =>
  clear byte (Code.storesTo_append.mpr (.inl stores))

theorem Clear.right (clear : m.Clear (first ++ second)) : m.Clear second := fun byte stores =>
  clear byte (Code.storesTo_append.mpr (.inr stores))

/-- Nothing changed but the flags and one of the registers to compute with. -/
abbrev Retains (register : Register) (before after : Machine) : Prop :=
  Agrees (fun family => family.isOrdinary = true ∧ family = register.family) (fun _ => False) before after

theorem binary_step_retains {mn : Mnemonic} {dst : Register} {src : Operand}
    (ord : dst.family.isOrdinary = true) (plain : mn ≠ .xchg)
    (stepped : step w m (.binary mn (.reg dst) src) = some next) : Retains dst m next :=
  binary_agrees ord plain stepped fun _ => ⟨ord, rfl⟩

/-- Code puts a word into a register. -/
def Puts (world : World) (machine : Machine) (code : Code) (register : Register) (word : BitVec 64) :
    Prop :=
  ∃ after, machine.run world code = some after ∧ after.reg register.family = word ∧
    Retains register machine after

section

variable (w) (m) {r : Register} {ty : Ty} {elementSize : Int64}

section

variable (working : r.Working false) (wide : r.size = 8)

include working wide

theorem widen_runs {signed : Bool} {width : Int} {mn : Mnemonic}
    (narrow : width = 1 ∨ width = 2 ∨ width = 4) (extends_ : mn.extension? = some signed) :
    Puts w m [.binary mn (.reg r) (.reg (r.resize width))] r
      (Word.extend signed width.toNat (m.reg r.family)) := by
  have part : (r.resize width).Working false := working.resize (by omega)
  have plain : mn ≠ .xchg := by
    rintro rfl
    cases extends_
  have sized : width? (.reg (r.resize width)) = some width := rfl
  obtain ⟨after, stepped, wrote⟩ := step_extension w m working extends_ sized (by omega)
    (read_reg w m part)
  refine ⟨after, run_singleton stepped, ?_, binary_step_retains working.ordinary plain stepped⟩
  rw [wrote.content, wide]
  exact (Word.blend_eight).trans Word.extend_low

theorem widenIndex_runs (integer : ty.isInteger = true) :
    Puts w m (widenIndex r ty) r (Word.extend ty.isSigned ty.registerSize.toNat
      (m.reg r.family)) := by
  cases ty with
  | prim primitive =>
    cases primitive with
    | i8 => exact widen_runs w m working wide (.inl rfl) rfl
    | i16 => exact widen_runs w m working wide (.inr (.inl rfl)) rfl
    | i32 => exact widen_runs w m working wide (.inr (.inr rfl)) rfl
    | u8 => exact widen_runs w m working wide (.inl rfl) rfl
    | u16 => exact widen_runs w m working wide (.inr (.inl rfl)) rfl
    | i64 => exact ⟨m, rfl, (BitVec.signExtend_eq _).symm, .refl m⟩
    | u64 => exact ⟨m, rfl, Word.low_eight.symm, .refl m⟩
    | u32 =>
      -- moving the lower half to itself clears the upper one
      have half : (r.resize 4).Working false := working.resize (by omega)
      obtain ⟨after, stepped, wrote⟩ := step_copy w m half half rfl
      have retains := binary_step_retains half.ordinary (show Mnemonic.mov ≠ .xchg by decide) stepped
      refine ⟨after, run_singleton stepped, ?_, retains⟩
      exact (wrote.content_half rfl).trans (Word.low_low (Nat.le_refl 4))
    | f32 | f64 | bool => cases integer
  | _ => cases integer

/-- An index counts elements once it is widened and scaled. -/
theorem indexCode_runs (integer : ty.isInteger = true)
    (fits : (Operand.imm elementSize).encodable 8 = true) :
    Puts w m (indexCode r ty elementSize) r
      (Word.extend ty.isSigned ty.registerSize.toNat (m.reg r.family) * elementSize.toBitVec) := by
  obtain ⟨middle, widened, content, agrees⟩ := widenIndex_runs w m working wide integer
  unfold indexCode
  by_cases single : elementSize = 1
  · subst single
    refine ⟨middle, by simpa using widened, ?_, agrees⟩
    rw [content]
    exact (BitVec.mul_one _).symm
  · have fetched : middle.fetch w r.size (.imm elementSize) = some elementSize.toBitVec := by
      rw [wide, fetch, if_pos fits]
      exact congrArg some Word.low_eight
    obtain ⟨after, stepped, wrote⟩ := step_arithmetic w middle working
      (show Mnemonic.imul.arithmetic? = some _ from rfl) (by omega) fetched
    have scaled := binary_step_retains working.ordinary (by decide) stepped
    rw [if_neg (by simpa using single)]
    refine ⟨after, run_join widened (run_singleton stepped), ?_, agrees.trans scaled⟩
    rw [wrote.content, content, wide]
    simp [Word.blend_eight, Word.apply]

end

end

end Machine

namespace Outcomes

variable {w : World} {m : Machine} {first : Outcomes} {rest : BitVec 64 → Outcomes}

def Lasting (outcomes : Outcomes) : Prop :=
  ∀ {machine word middle after}, outcomes machine (some (word, middle)) → middle.Settles after →
    outcomes machine (some (word, after))

theorem lasting_word (v : Machine → BitVec 64) : (word v).Lasting := by
  rintro m _ middle after ⟨_, settles, ⟨⟩⟩ later
  exact ⟨after, settles.trans later, rfl⟩

theorem lasting_bind (lasting : ∀ word, (rest word).Lasting) : (first.bind rest).Lasting := by
  rintro m word middle after (⟨_, ⟨⟩⟩ | ⟨start, reached, before, going⟩) later
  exact .inr ⟨start, reached, before, lasting start going later⟩

theorem bind_run {found last : Machine → BitVec 64}
    (come : first m ((m.run w before).map fun middle => (found middle, middle)))
    (going : ∀ middle, m.run w before = some middle →
      rest (found middle) middle ((middle.run w after).map fun next => (last next, next))) :
    (first.bind rest) m ((m.run w (before ++ after)).map fun next => (last next, next)) := by
  rw [run_append]
  cases ran : m.run w before with
  | none =>
    rw [ran] at come
    exact .inl ⟨come, rfl⟩
  | some middle =>
    rw [ran] at come
    exact .inr ⟨found middle, middle, come, going middle ran⟩

theorem bind_word {outcome : Option Machine} {found last : Machine → BitVec 64}
    {v : BitVec 64 → Machine → BitVec 64}
    (come : first m (outcome.map fun after => (found after, after)))
    (same : ∀ after, last after = v (found after) after) :
    (first.bind fun start => .word (v start)) m (outcome.map fun after => (last after, after)) := by
  cases outcome with
  | none => exact .inl ⟨come, rfl⟩
  | some after =>
    refine .inr ⟨found after, after, come, after, .refl after, ?_⟩
    rw [← same]
    rfl

end Outcomes

namespace Expr

variable {w : World} {env : Env} {scope : List (String × Variable)}

theorem pointed_lasting (ptr : Expr) (reaches : Outcomes) :
    (ptr.pointed w env scope reaches).Lasting := by
  unfold pointed
  split
  · exact lasting_bind fun _ => lasting_word _
  · exact lasting_bind fun _ => lasting_word _

theorem reaches_lasting (expr : Expr) : (expr.reaches w env scope).Lasting := by
  cases expr with
  | ident pos name ty =>
    rintro m word middle after ⟨slot, found, reached⟩ later
    exact ⟨slot, found, lasting_word _ reached later⟩
  | deref pos ptr => exact pointed_lasting ptr _
  | index pos base idx =>
    exact lasting_bind fun _ => lasting_bind fun _ => lasting_word _
  | member pos base field =>
    apply lasting_bind
    intro start
    cases (record base.type).field? field with
    | some found => exact lasting_word _
    | none => rintro _ _ _ _ ⟨⟩
  | _ => rintro _ _ _ _ ⟨⟩

end Expr

namespace Lower

namespace Frame

variable {frame next : Frame} {r : Register} {hint : Option Register}

theorem Pooled.ordinary (pooled : frame.Pooled) : frame.Ordinary := by
  intro r mem
  obtain ⟨_, among⟩ := pooled r mem
  exact pool_ordinary among

section

variable (pooled : frame.Pooled) (among : r.family ∈ Register.poolFamilies isFloat)

include pooled among

theorem Pooled.push : (frame.push r).Pooled := by
  intro other mem
  rcases List.mem_cons.mp mem with rfl | mem
  · exact ⟨isFloat, among⟩
  · exact pooled other mem

theorem Pooled.hold : (frame.hold r).Pooled := by
  unfold Frame.hold
  split
  · exact pooled
  · exact pooled.push among

end

theorem Pooled.kept (pooled : frame.Pooled) (kept : frame.Kept next) : next.Pooled := by
  intro r mem
  rw [kept.held] at mem
  exact pooled r mem

/-- The register that a caller offers for a base is in use, and one that values are computed in. -/
def Lends (frame : Frame) (hint : Option Register) : Prop :=
  ∀ register, hint = some register →
    register.family ∈ Register.poolFamilies false ∧ frame.inUse register.family = true

theorem Lends.offers (lends : frame.Lends hint) : frame.Offers hint := by
  intro r given
  exact ⟨pool_ordinary (lends r given).1, (lends r given).2⟩

structure Pins (frame : Frame) (register : Register) : Prop where
  pooled : register.family ∈ Register.poolFamilies false
  width : register.size = 8
  used : frame.inUse register.family = true

/-- The registers of an address are in use, and its index has one of its own. -/
structure Anchors (frame : Frame) (address : Address) : Prop where
  base : ∃ register, address.base = .reg register ∧
    (register = .framePointer ∨ frame.Pins register)
  index : ∀ register, address.index = some register →
    frame.Pins register ∧ address.base ≠ .reg register

/-- Code comes to a word, which is found in the machine that it leaves behind. -/
def Comes (frame : Frame) (env : Env) (world : World) (weight : Nat) (outcomes : Outcomes) (code : Code)
    (found : Machine → BitVec 64) : Prop :=
  ∀ machine : Machine, Sound env frame.depth weight code → machine.Clear code →
    outcomes machine ((machine.run world code).map fun after => (found after, after))

/-- A run whose code comes to where its address is. An address in the frame needs no code. -/
structure Leads (frame : Frame) (env : Env) (world : World) (weight : Nat) (outcomes : Outcomes)
    (code : Code) (located : Located) (next : Frame) : Prop where
  comes : frame.Comes env world weight outcomes code (·.address world located.address)
  anchors : next.Anchors located.address
  pooled : next.Pooled
  plain : located.address.inRegisters = false → code = []

end Frame


variable {env : Env} {w : World} {weight : Nat} {frame middle next : Frame}
  {hint : Option Register} {code : Code} {located : Located} {outcomes : Outcomes}

theorem address_frameSlot (w : World) (m : Machine) (offset : Int64) :
    m.address w (.frameSlot offset) = m.reg .rbp - offset.toBitVec := by
  simp [address, start, Address.frameSlot, Register.framePointer, BitVec.sub_eq_add_neg]

theorem placeVariable_leads (pooled : frame.Pooled)
    (run : Yields (placeVariable pos name) env frame (code, located) next) :
    frame.Leads env w weight ((Expr.ident pos name ty).reaches w env frame.scope) code located
      next := by
  obtain ⟨slot, found, rfl, same⟩ := yields_placeVariable.mp run
  cases same
  constructor
  · intro m _ _
    refine ⟨slot, found, m, .refl m, ?_⟩
    exact congrArg (fun place => some (place, m)) (address_frameSlot w m slot.offset)
  · constructor
    · exact ⟨_, rfl, .inl rfl⟩
    · rintro _ ⟨⟩
  · exact pooled.kept ((Frame.Kept.refl _).refer slot)
  · intro _
    rfl

theorem advance_leads (moves : ∀ start m, rest start m (some (start + bytes.toBitVec, m)))
    (leads : frame.Leads env w weight outcomes code located next) :
    frame.Leads env w weight (outcomes.bind rest) code
      { located with address := located.address.advance bytes } next := by
  constructor
  · intro m sound clear
    have come := leads.comes m sound clear
    cases ran : m.run w code with
    | none =>
      rw [ran] at come
      exact .inl ⟨come, rfl⟩
    | some after =>
      rw [ran] at come
      have moved := moves (after.address w located.address) after
      rw [← address_advance] at moved
      exact .inr ⟨_, after, come, moved⟩
  · exact ⟨leads.anchors.base, leads.anchors.index⟩
  · exact leads.pooled
  · exact leads.plain

namespace Frame

variable {r : Register} {address : Address}

theorem Pins.apart (pins : frame.Pins r) (fresh : Fresh frame false size other) :
    r.family ≠ other.family := by
  intro same
  have used := pins.used
  rw [same, fresh.unused] at used
  cases used

theorem Pins.working (pins : frame.Pins r) : r.Working false :=
  .of_width (List.mem_cons_of_mem _ pins.pooled) (.inr (.inr (.inr pins.width)))

theorem Pins.covered {inner : Frame} (pins : frame.Pins r) (covers : inner.Covers frame) :
    inner.Pins r := ⟨pins.pooled, pins.width, covers _ pins.used⟩

theorem Anchors.covered {inner : Frame} (anchors : frame.Anchors address)
    (covers : inner.Covers frame) : inner.Anchors address := by
  obtain ⟨⟨base, based, kind⟩, indexed⟩ := anchors
  constructor
  · exact ⟨base, based, kind.imp_right fun pins => pins.covered covers⟩
  · intro index given
    exact ⟨(indexed index given).1.covered covers, (indexed index given).2⟩

/-- The frame pointer is no register that is handed out. -/
theorem Anchors.base_apart {base other : Register} (anchors : frame.Anchors address)
    (based : address.base = .reg base) (fresh : Fresh frame false size other) :
    base.family ≠ other.family :=
    by
  obtain ⟨r, given, kind⟩ := anchors.base
  cases given.symm.trans based
  rcases kind with rfl | pins
  · intro same
    have pooled := fresh.pooled
    rw [← same] at pooled
    exact absurd pooled (by decide)
  · exact pins.apart fresh

end Frame

end Lower

open Lower

namespace Machine

variable {w : World} {m next : Machine} {frame : Frame} {r : Register}
  {address : Address} {amount : BitVec 64}

section

variable (anchors : frame.Anchors address)

include anchors

theorem address_kept {inner : Frame} {touches : BitVec 64 → Prop} (covers : inner.Covers frame)
    (apart : ∀ r, frame.Pins r → r.family ∉ results)
    (agrees : Agrees (fun family => family.isOrdinary = true ∧
      inner.mayChange results family) touches m next) :
    next.address w address = m.address w address := by
  have pinned : ∀ r, frame.Pins r →
      next.reg r.family = m.reg r.family := by
    intro r pins
    apply agrees.registers
    rintro ⟨_, unused | scratch | result⟩
    · rw [covers _ pins.used] at unused
      cases unused
    · exact Register.not_scratch pins.pooled scratch
    · exact apart r pins result
  obtain ⟨base, based, kind⟩ := anchors.base
  apply address_congr based
  · rcases kind with rfl | pins
    · exact agrees.registers .rbp (by rintro ⟨⟨⟩, _⟩)
    · exact pinned base pins
  · intro index given
    exact pinned index (anchors.index index given).1

theorem address_indexed (none : address.index = none) (fresh : Frame.Fresh frame false 8 r)
    (agrees : Retains r m next) :
    next.address w { address with index := some r } = m.address w address + next.reg r.family := by
  obtain ⟨base, based, _⟩ := anchors.base
  have apart := anchors.base_apart based fresh
  have same : next.reg base.family = m.reg base.family :=
    agrees.registers base.family fun change => apart change.2
  simp [Machine.address, none, based, start, same]

theorem address_added {idx : Register} (given : address.index = some idx)
    (added : next.reg idx.family = m.reg idx.family + amount) (agrees : Retains idx m next) :
    next.address w address = m.address w address + amount := by
  obtain ⟨base, based, kind⟩ := anchors.base
  obtain ⟨pins, differs⟩ := anchors.index idx given
  have apart : base.family ≠ idx.family := by
    intro same
    rcases kind with rfl | other
    · have pooled := pins.pooled
      rw [← same] at pooled
      exact absurd pooled (by decide)
    · apply differs
      rw [based]
      cases base
      cases idx
      cases same
      cases other.width
      cases pins.width
      rfl
  have same : next.reg base.family = m.reg base.family :=
    agrees.registers base.family fun change => apart change.2
  simp only [Machine.address, given, based, start, same, added, Option.elim_some]
  ac_rfl

end

/-- What is behind the evaluation of an index: it becomes the index of the address, or is added to the
one that is there. -/
inductive Indexing (register : Register) (ty : Ty) (elementSize : Int64) (start : Address) :
    Code → Address → Prop
  | first (none : start.index = none) :
    Indexing register ty elementSize start (indexCode register ty elementSize)
      { start with index := some register }
  | added {index : Register} (given : start.index = some index) :
    Indexing register ty elementSize start
      (indexCode register ty elementSize ++ [.binary .add (.reg index) (.reg register)]) start

theorem Indexing.runs {final : Address} {ty : Ty} {elementSize : Int64} {tail : Code}
    (indexing : Indexing r ty elementSize address tail final) (w : World) (m : Machine)
    (anchors : frame.Anchors address) (fresh : Frame.Fresh frame false 8 r)
    (integer : ty.isInteger = true) (fits : (Operand.imm elementSize).encodable 8 = true) :
    ∃ after, m.run w tail = some after ∧ m.Settles after ∧ after.address w final = m.address w address +
      Word.extend ty.isSigned ty.registerSize.toNat (m.reg r.family) * elementSize.toBitVec := by
  have working : r.Working false := ⟨List.mem_cons_of_mem _ fresh.pooled, by rw [fresh.width]; rfl⟩
  obtain ⟨scaled, ran, content, agrees⟩ := indexCode_runs w m working fresh.width integer fits
  cases indexing with
  | first none =>
    refine ⟨scaled, ran, .of_agrees agrees, ?_⟩
    rw [address_indexed anchors none fresh agrees, content]
  | @added idx given =>
    obtain ⟨pins, _⟩ := anchors.index idx given
    have fetched : scaled.fetch w idx.size (.reg r) =
        some (scaled.reg r.family) := by
      have read := read_reg w scaled working
      rw [fresh.width] at read
      rw [pins.width]
      refine Eq.trans read ?_
      rw [view, fresh.width]
      exact congrArg some Word.low_eight
    obtain ⟨after, stepped, wrote⟩ := step_arithmetic w scaled pins.working
      (show Mnemonic.add.arithmetic? = some _ from rfl) (by rintro ⟨⟩) fetched
    have adding := binary_step_retains pins.working.ordinary (by decide) stepped
    refine ⟨after, run_join ran (run_singleton stepped), (Settles.of_agrees agrees).trans
      (.of_agrees adding), ?_⟩
    have added : after.reg idx.family = scaled.reg idx.family + scaled.reg r.family := by
      rw [wrote.content, pins.width]
      simp [Word.blend_eight, Word.apply]
    have same : scaled.address w address = m.address w address := by
      obtain ⟨base, based, _⟩ := anchors.base
      apply address_congr based
      · exact agrees.registers _ fun change => anchors.base_apart based fresh change.2
      · intro other also
        exact agrees.registers _ fun change => (anchors.index other also).1.apart fresh change.2
    rw [address_added anchors given added adding, same, content]

end Machine

namespace Lowering

/-- Wherever a node is lowered among some variables, its code leaves an address in a register. -/
structure Points (node : Lowering) (env : Env) (world : World) (scope : List (String × Variable))
    (weight : Nat) (outcomes : Outcomes) : Prop where
  brackets : node.Brackets env weight
  comes : ∀ {frame next : Frame} {target : Register} {code : Code},
    frame.scope = scope → frame.Pooled → target.family ∈ Register.poolFamilies false →
    target.size = 8 → Yields (node.into target) env frame code next →
    frame.Comes env world weight outcomes code (·.reg target.family)

end Lowering

namespace Lower

variable {env : Env} {w : World} {weight : Nat} {frame middle next : Frame}
  {hint : Option Register} {code : Code} {located : Located} {outcomes : Outcomes}

theorem address_register (w : World) (m : Machine) (r : Register) :
    m.address w { base := .reg r } = m.reg r.family := by
  simp [address, start]

theorem pointer_leads {ptr : Lowering} {inner : Frame} {r : Register}
    (points : ptr.Points env w frame.scope weight outcomes) (scope : inner.scope = frame.scope)
    (depth : inner.depth = frame.depth) (pooled : inner.Pooled)
    (among : r.family ∈ Register.poolFamilies false) (used : inner.inUse r.family = true)
    (evaluated : Yields (ptr.into (r.resize 8)) env inner code next) :
    frame.Leads env w weight outcomes code ⟨{ base := .reg (r.resize 8) }, held⟩ next := by
  have ord : (r.resize 8).family.isOrdinary = true := Frame.pool_ordinary among
  have kept := (points.brackets.into_evaluates pooled.ordinary evaluated ord).kept
  constructor
  · intro m sound clear
    simp only [address_register]
    exact points.comes scope pooled (show (r.resize 8).family ∈ _ from among) rfl evaluated m
      (depth ▸ sound) clear
  · constructor
    · exact ⟨_, rfl, .inr ⟨among, rfl, kept.covers _ used⟩⟩
    · rintro _ ⟨⟩
  · exact pooled.kept kept
  · intro plain
    have inside : Address.inRegisters { base := .reg (r.resize 8) } = true :=
      inRegisters_of_ordinary ord
    cases inside.symm.trans plain

theorem placePointer_leads {ptr : Lowering} (points : ptr.Points env w frame.scope weight outcomes)
    (pooled : frame.Pooled) (lends : frame.Lends hint)
    (run : Yields (placePointer ptr hint) env frame (code, located) next) :
    frame.Leads env w weight outcomes code located next := by
  rcases yields_placePointer run with ⟨r, _, usable, evaluated, same⟩ |
    ⟨r, _, _, found, evaluated, same⟩
  · cases same
    obtain ⟨among, used⟩ := lends r (Option.filter_eq_some_iff.mp usable).1
    exact pointer_leads points rfl rfl pooled among used evaluated
  · cases same
    have fresh := Frame.free_fresh found
    have touched : frame.Kept (frame.touch r.family) := (Frame.Kept.refl _).touch _
    apply pointer_leads points (by simp) (by simp) _ fresh.pooled _ evaluated
    · exact (pooled.kept touched).push fresh.pooled
    · exact Frame.inUse_iff.mpr ⟨r, List.mem_cons_self, rfl⟩

theorem addIndex_leads {idx : Expr} {elementSize : Int64} {base indexing : Code} {start : Located}
    (integer : idx.type.isInteger = true) (fits : (Operand.imm elementSize).encodable 8 = true)
    (runtime : idx.integerLiteral? = none) (brackets : idx.lowering.Brackets env weight)
    (locates : frame.Locates env weight hint base start middle)
    (leads : frame.Leads env w weight outcomes base start middle)
    (run : Yields (addIndex start idx.lowering elementSize) env middle (indexing, located) next) :
    frame.Leads env w weight (outcomes.bind fun start =>
      (idx.counted w env frame.scope).bind fun count => .word fun _ =>
      start + Word.extend idx.type.isSigned idx.type.registerSize.toNat count *
      elementSize.toBitVec) (base ++ indexing) located next := by
  obtain ⟨r, found, evaluation, after, evaluated, outcome⟩ := yields_addIndex run
  rw [Expr.lowering_type] at evaluated outcome
  obtain ⟨extra, _, grown, _⟩ := locates.grown
  have fresh := Frame.free_fresh found
  have touched : middle.Kept (middle.touch r.family) := (Frame.Kept.refl _).touch _
  have inner : ((middle.touch r.family).push r).Pooled :=
    (leads.pooled.kept touched).push fresh.pooled
  have evaluates := brackets.into_evaluates inner.ordinary evaluated fresh.ordinary
  have covers : ((middle.touch r.family).push r).Covers middle :=
    touched.covers.push r
  -- the code has three parts, and the address of the first survives the evaluation of the index
  have comes {tail : Code} {final : Address}
      (indexing : Indexing r idx.type elementSize start.address tail final) :
      frame.Comes env w weight (outcomes.bind fun start => (idx.counted w env frame.scope).bind fun
        count => .word fun _ => start + Word.extend idx.type.isSigned idx.type.registerSize.toNat
          count * elementSize.toBitVec) (base ++ (evaluation ++ tail)) (·.address w final) := by
    intro m sound clear
    apply Outcomes.bind_run (leads.comes m sound.left clear.left)
    intro reached ran
    have before := locates.bracketed.agrees sound.left clear.left .none ran
    have inside : reached.Clear evaluation := (before.frame none evaluation).2.1 clear.right.left
    have deep : Sound env ((middle.touch r.family).push r).depth weight evaluation := by
      simpa [grown.depth] using sound.right.left
    have own : idx.counted w env frame.scope reached ((reached.run w evaluation).map
        fun after => (after.reg r.family, after)) := by
      unfold Expr.counted
      rw [runtime]
      exact ⟨_, r, evaluation, after, by simp [grown.scope], inner, fresh.pooled, evaluated, rfl⟩
    apply Outcomes.bind_run own
    intro counted evaluating
    have agrees := evaluates.bracketed.agrees deep inside .none evaluating
    obtain ⟨last, ranTail, settles, placed⟩ := indexing.runs w counted leads.anchors fresh integer fits
    refine ⟨last, settles, ?_⟩
    have kept : counted.address w start.address = reached.address w start.address := by
      apply address_kept leads.anchors covers _ agrees
      intro other pins member
      exact pins.apart fresh (List.mem_singleton.mp member)
    rw [ranTail, Option.map_some, placed, kept]
  have pinned : after.Pins r := by
    refine ⟨fresh.pooled, fresh.width, evaluates.kept.covers _ ?_⟩
    exact Frame.inUse_iff.mpr ⟨r, List.mem_cons_self, rfl⟩
  have anchored : after.Anchors start.address :=
    leads.anchors.covered (evaluates.kept.covers.trans covers)
  rcases outcome with ⟨none, rfl, same⟩ | ⟨index, given, rfl, same⟩
  · cases same
    constructor
    · exact comes (.first none)
    · constructor
      · exact anchored.base
      · rintro _ ⟨⟩
        refine ⟨pinned, fun same => ?_⟩
        exact leads.anchors.base_apart same fresh rfl
    · exact inner.kept evaluates.kept
    · simp [Address.inRegisters]
  · cases same
    have held : after.pop.held = middle.held := by
      rw [Frame.pop_held, evaluates.kept.held]
      simp
    constructor
    · rw [List.append_assoc]
      exact comes (.added given)
    · apply leads.anchors.covered
      intro family used
      rwa [Frame.inUse_congr held]
    · intro other member
      rw [held] at member
      exact leads.pooled other member
    · simp [Address.inRegisters, given]

end Lower
end Nasm64
