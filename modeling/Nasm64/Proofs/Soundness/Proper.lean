import Nasm64.Proofs.Pressure.Basic

/-! Code without names that mean nothing: every register in it has a name, and every label that it reads
from is one of those known. Whether registers have a name is only asked of typed trees. -/
namespace Nasm64

namespace Register

structure Serves (register : Register) (isFloat : Bool) : Prop where
  usable : register.family.isUsable = true
  ofClass : register.isFloat = isFloat
  pooled : inPool isFloat register.size = true

def Named (typed : Prop) (register : Register) : Prop := typed → register.valid = true

variable {r : Register} {isFloat : Bool} {size : Int} {typed : Prop}

theorem Serves.valid (serves : r.Serves isFloat) : r.valid = true := by
  have pooled := serves.pooled
  have same : r.family.isFloat = isFloat := serves.ofClass
  rw [Register.valid, Family.hasView_of_isUsable serves.usable, same]
  cases isFloat with
  | false => simpa [inPool] using pooled
  | true =>
    simp only [inPool, if_true] at pooled ⊢
    rw [pooled, Bool.true_or]

theorem named_of_serves (serves : typed → r.Serves isFloat) : r.Named typed :=
  fun is => (serves is).valid

theorem Serves.resize (serves : r.Serves isFloat) (pooled : inPool isFloat size = true) :
    (r.resize size).Serves isFloat := ⟨serves.usable, serves.ofClass, pooled⟩

theorem inPool_general (pooled : inPool isFloat size = true) : inPool false size = true := by
  cases isFloat with
  | false => exact pooled
  | true =>
    simp only [inPool, if_true, Bool.or_eq_true, beq_iff_eq] at pooled
    rcases pooled with rfl | rfl <;> rfl

theorem inPool_eight (isFloat : Bool) : inPool isFloat 8 = true := by cases isFloat <;> rfl

theorem serves_scratch (pooled : inPool false size = true) : (scratch.resize size).Serves false :=
  ⟨rfl, rfl, pooled⟩

theorem named_resize_eight (usable : typed → r.family.isUsable = true) :
    (r.resize 8).Named typed := by
  intro is
  rw [Register.valid, resize_family, Family.hasView_of_isUsable (usable is)]
  cases r.family.isFloat <;> rfl

end Register

/-- A value of a type with a scalar fits a register of its class. -/
theorem Ty.inPool_registerSize {ty : Ty} (valued : ty.scalar?.isSome = true) :
    Register.inPool ty.isFloat ty.registerSize = true := by
  cases ty with
  | prim primitive => cases primitive <;> decide
  | pointer | array => rfl
  | void | struct => cases valued

namespace Ty

variable {ty : Ty}

theorem isVoid_of_scalar? (valued : ty.scalar?.isSome = true) : ty.isVoid = false := by
  cases ty with
  | prim | pointer | array => rfl
  | void | struct => cases valued

theorem valued_of_isScalar (scalar : ty.isScalar = true) : ty.scalar?.isSome = true := by
  cases ty with
  | prim | pointer => rfl
  | void | struct | array => cases scalar

theorem valued_of_isFloat (float : ty.isFloat = true) : ty.scalar?.isSome = true := by
  cases ty with
  | prim => rfl
  | _ => cases float

theorem valued_of_isInteger (integer : ty.isInteger = true) :
    ty.scalar?.isSome = true ∧ ty.isFloat = false := by
  cases ty with
  | prim primitive => cases primitive <;> first | exact ⟨rfl, rfl⟩ | cases integer
  | _ => cases integer

theorem valued_of_isBool (bool : ty.isBool = true) :
    ty.scalar?.isSome = true ∧ ty.isFloat = false := by
  cases ty with
  | prim primitive => cases primitive <;> first | exact ⟨rfl, rfl⟩ | cases bool
  | _ => cases bool

theorem valued_of_isPointer (ptr : ty.isPointer = true) :
    ty.scalar?.isSome = true ∧ ty.isFloat = false := by
  cases ty with
  | pointer => exact ⟨rfl, rfl⟩
  | _ => cases ptr

theorem valued_of_isArray (array : ty.isArray = true) :
    ty.scalar?.isSome = true ∧ ty.isFloat = false := by
  cases ty with
  | array => exact ⟨rfl, rfl⟩
  | _ => cases array

end Ty

theorem Lower.Frame.Fresh.serves {frame : Frame} {isFloat : Bool} {size : Int} {r : Register}
    (fresh : frame.Fresh isFloat size r) : r.Serves isFloat :=
  ⟨Register.isUsable_of_pool fresh.pooled, fresh.isFloat, fresh.width ▸ fresh.supported⟩

namespace Address

def registers (address : Address) : List Register :=
  (match address.base with
    | .reg register => [register]
    | _ => []) ++ address.index.toList

/-- The label that an address is relative to. -/
def label? (address : Address) : Option String :=
  match address.base with
  | .label name => some name
  | _ => none

end Address

namespace Operand

def address? : Operand → Option Address
  | mem _ address | place address => some address
  | _ => none

def registers : Operand → List Register
  | reg register => [register]
  | operand => operand.address?.elim [] Address.registers

/-- The label that an operand reads from or points to. -/
def label? (operand : Operand) : Option String := operand.address?.bind Address.label?

end Operand

namespace Line

def operands : Line → List Operand
  | unary _ operand => [operand]
  | binary _ target source => [target, source]
  | _ => []

end Line

/-- An address whose registers have names, in a typed tree, and whose label is known. -/
structure Address.Proper (typed : Prop) (labels : List String) (address : Address) : Prop where
  named : typed → ∀ register ∈ address.registers, register.valid = true
  known : ∀ label ∈ address.label?, label ∈ labels

structure Operand.Proper (typed : Prop) (labels : List String) (operand : Operand) : Prop where
  named : typed → ∀ register ∈ operand.registers, register.valid = true
  known : ∀ label ∈ operand.label?, label ∈ labels

def Line.Proper (typed : Prop) (labels : List String) (line : Line) : Prop :=
  ∀ operand ∈ line.operands, operand.Proper typed labels

def Code.Proper (typed : Prop) (labels : List String) (code : Code) : Prop :=
  ∀ line ∈ code, line.Proper typed labels

section

variable {typed : Prop} {labels more : List String} {r tgt source : Register}
  {address : Address} {operand : Operand} {mnemonic : Mnemonic} {size : Int}

namespace Address

theorem Proper.mono (proper : address.Proper typed labels) (grown : labels ⊆ more) :
    address.Proper typed more := ⟨proper.named, fun label used => grown (proper.known label used)⟩

@[simp] theorem proper_frameSlot (offset : Int64) : (frameSlot offset).Proper typed labels := by
  refine ⟨fun _ r mem => ?_, by simp [frameSlot, label?]⟩
  simp only [frameSlot, registers, Option.toList_none, List.append_nil, List.mem_singleton] at mem
  subst mem
  rfl

@[simp] theorem proper_aboveStack (offset : Int64) : (aboveStack offset).Proper typed labels := by
  refine ⟨fun _ r mem => ?_, by simp [aboveStack, label?]⟩
  simp only [aboveStack, registers, Option.toList_none, List.append_nil, List.mem_singleton] at mem
  subst mem
  rfl

@[simp] theorem proper_slot (offset : Int64) :
    ({ base := .slot offset } : Address).Proper typed labels :=
  ⟨by simp [registers], by simp [label?]⟩

@[simp] theorem proper_atLabel : (atLabel name).Proper typed labels ↔ name ∈ labels := by
  constructor
  · intro proper
    exact proper.known name rfl
  · intro known
    exact ⟨by simp [atLabel, registers], by simpa [atLabel, label?] using known⟩

theorem proper_reg (named : r.Named typed) : ({ base := .reg r } : Address).Proper typed labels :=
  ⟨by simpa [registers, Register.Named] using named, by simp [label?]⟩

section

variable (proper : address.Proper typed labels)

include proper

theorem Proper.advance (bytes : Int64) :
    (address.advance bytes).Proper typed labels := ⟨proper.named, proper.known⟩

theorem Proper.indexed (named : r.Named typed) :
    ({ address with index := some r } : Address).Proper typed labels := by
  refine ⟨fun is other mem => ?_, proper.known⟩
  simp only [registers, Option.toList_some, List.mem_append, List.mem_singleton] at mem
  rcases mem with based | rfl
  · exact proper.named is other (List.mem_append_left _ based)
  · exact named is

theorem Proper.index (idx : address.index = some r) (is : typed) : r.valid = true :=
  proper.named is r (List.mem_append_right _ (by simp [idx]))

end

end Address

namespace Operand

theorem Proper.mono (proper : operand.Proper typed labels) (grown : labels ⊆ more) :
    operand.Proper typed more := ⟨proper.named, fun label used => grown (proper.known label used)⟩

@[simp] theorem proper_reg : (Operand.reg r).Proper typed labels ↔ r.Named typed := by
  constructor
  · intro proper is
    exact proper.named is r (by simp [registers])
  · intro named
    exact ⟨by simpa [registers, Register.Named] using named, by simp [label?, address?]⟩

@[simp] theorem proper_imm (v : Int64) : (Operand.imm v).Proper typed labels :=
  ⟨by simp [registers, address?], by simp [label?, address?]⟩

@[simp] theorem proper_symbol (name : String) : (Operand.symbol name).Proper typed labels :=
  ⟨by simp [registers, address?], by simp [label?, address?]⟩

@[simp] theorem proper_mem :
    (Operand.mem size address).Proper typed labels ↔ address.Proper typed labels :=
  ⟨fun proper => ⟨proper.named, proper.known⟩, fun proper => ⟨proper.named, proper.known⟩⟩

@[simp] theorem proper_place :
    (Operand.place address).Proper typed labels ↔ address.Proper typed labels :=
  ⟨fun proper => ⟨proper.named, proper.known⟩, fun proper => ⟨proper.named, proper.known⟩⟩

end Operand

namespace Line

variable {line : Line} {other : Operand}

theorem Proper.mono (proper : line.Proper typed labels) (grown : labels ⊆ more) :
    line.Proper typed more := fun operand mem => (proper operand mem).mono grown

@[simp] theorem proper_plain : (Line.plain mnemonic).Proper typed labels := by simp [Proper, operands]

@[simp] theorem proper_label (name : String) : (Line.label name).Proper typed labels := by
  simp [Proper, operands]

@[simp] theorem proper_comment (text : String) : (Line.comment text).Proper typed labels := by
  simp [Proper, operands]

@[simp] theorem proper_unary :
    (Line.unary mnemonic operand).Proper typed labels ↔ operand.Proper typed labels := by
  simp [Proper, operands]

@[simp] theorem proper_binary : (Line.binary mnemonic operand other).Proper typed labels ↔
    operand.Proper typed labels ∧ other.Proper typed labels := by
  simp [Proper, operands]

@[simp] theorem proper_mov : (Line.mov operand other).Proper typed labels ↔
    operand.Proper typed labels ∧ other.Proper typed labels := proper_binary

@[simp] theorem proper_lea : (Line.lea r address).Proper typed labels ↔
    r.Named typed ∧ address.Proper typed labels := by
  simp [Line.lea]

@[simp] theorem proper_call (name : String) : (Line.call name).Proper typed labels := by
  simp [Line.call]

@[simp] theorem proper_jump (name : String) : (Line.jump name).Proper typed labels := by
  simp [Line.jump]

@[simp] theorem proper_jumpIfZero (name : String) : (Line.jumpIfZero name).Proper typed labels := by
  simp [Line.jumpIfZero]

end Line

namespace Code

variable {first second : Code} {line : Line}

theorem Proper.mono (proper : Code.Proper typed labels first) (grown : labels ⊆ more) :
    Code.Proper typed more first := fun line mem => (proper line mem).mono grown

@[simp] theorem proper_nil : Code.Proper typed labels [] := by simp [Proper]

@[simp] theorem proper_cons : Code.Proper typed labels (line :: first) ↔
    line.Proper typed labels ∧ Code.Proper typed labels first := by simp [Proper]

@[simp] theorem proper_append : Code.Proper typed labels (first ++ second) ↔
    Code.Proper typed labels first ∧ Code.Proper typed labels second := List.forall_mem_append

theorem proper_flatten {codes : List Code} :
    Code.Proper typed labels codes.flatten ↔ ∀ code ∈ codes, Code.Proper typed labels code := by
  induction codes with
  | nil => simp
  | cons code rest ih => simp [ih]

theorem proper_flatMap {α : Type} {items : List α} {code : α → Code}
    (each : ∀ item ∈ items, Code.Proper typed labels (code item)) :
    Code.Proper typed labels (items.flatMap code) := by
  intro line mem
  obtain ⟨item, listed, inside⟩ := List.mem_flatMap.mp mem
  exact each item listed line inside

end Code

namespace Lower

theorem move_proper (named : tgt.Named typed) (proper : operand.Proper typed labels) :
    Code.Proper typed labels (move tgt operand) := by
  unfold move
  split <;> simp [named, proper]

theorem store_proper (proper : operand.Proper typed labels) (named : source.Named typed) :
    Code.Proper typed labels (store operand source) := by
  unfold store
  split <;> simp [named, proper]

theorem moveRegister_proper (targeted : typed → tgt.Serves isFloat)
    (sourced : typed → source.Serves isFloat) :
    Code.Proper typed labels (moveRegister tgt source) := by
  have target_named := Register.named_of_serves targeted
  have source_named := Register.named_of_serves sourced
  have target_wide := Register.named_resize_eight fun is => (targeted is).usable
  have source_wide := Register.named_resize_eight fun is => (sourced is).usable
  unfold moveRegister
  split
  · simp
  · split
    · simp [target_named, source_named]
    · split
      · simp [target_named, source_wide]
      · split
        · simp [target_wide, source_named]
        · simp [target_named, source_named]

theorem zero_proper (serves : typed → r.Serves isFloat) : Code.Proper typed labels (zero r) := by
  unfold zero
  split
  · simpa using Register.named_of_serves serves
  · next general =>
    have narrow : (r.resize 4).Named typed := by
      intro is
      have held := serves is
      rw [show isFloat = false by rw [← held.ofClass]; simpa using general] at held
      exact (held.resize rfl).valid
    simpa using narrow

theorem mem_chunksFrom {total : Nat} (mem : (place, unit) ∈ chunksFrom total start) :
    ∃ rest, unit = chunk rest := by
  fun_induction chunksFrom total start with
  | case1 start _ _ ih =>
    rcases List.mem_cons.mp mem with same | later
    · exact ⟨_, (Prod.mk.inj same).2⟩
    · exact ih later
  | case2 => cases mem

theorem mem_chunks_unit (mem : (start, unit) ∈ chunks bytes) : Register.inPool false unit = true := by
  obtain ⟨rest, rfl⟩ := mem_chunksFrom mem
  unfold chunk
  split_ifs <;> rfl

theorem copyBytes_proper {place origin : Address} (targeted : place.Proper typed labels)
    (sourced : origin.Proper typed labels) (bytes : Int64) :
    Code.Proper typed labels (copyBytes place origin bytes) := by
  refine Code.proper_flatMap fun ⟨start, unit⟩ mem => ?_
  have named : (Register.scratch.resize unit).Named typed :=
    fun _ => (Register.serves_scratch (mem_chunks_unit mem)).valid
  simp [named, targeted.advance, sourced.advance]

theorem zeroBytes_proper (targeted : place.Proper typed labels) (bytes : Int64) :
    Code.Proper typed labels (zeroBytes place bytes) := by
  intro line mem
  obtain ⟨⟨start, unit⟩, _, rfl⟩ := List.mem_map.mp mem
  simp [targeted.advance]

theorem pushCode_proper (serves : typed → r.Serves isFloat) :
    Code.Proper typed labels (pushCode r) := by
  have wide := Register.named_resize_eight fun is => (serves is).usable
  have stack : Register.stackPointer.Named typed := fun _ => rfl
  unfold pushCode
  split
  · simpa [stack] using Register.named_of_serves serves
  · simpa using wide

theorem popCode_proper (serves : typed → r.Serves isFloat) :
    Code.Proper typed labels (popCode r) := by
  have wide := Register.named_resize_eight fun is => (serves is).usable
  have stack : Register.stackPointer.Named typed := fun _ => rfl
  unfold popCode
  split
  · simpa [stack] using Register.named_of_serves serves
  · simpa using wide

theorem serves_accumulatorFor (valued : ty.scalar?.isSome = true) :
    (accumulatorFor ty).Serves ty.isFloat := by
  have pooled := Ty.inPool_registerSize valued
  unfold accumulatorFor
  cases float : ty.isFloat <;> rw [float] at pooled <;> exact ⟨rfl, rfl, pooled⟩

end Lower

end

/-- What a node of a type gives: an operand, a value in a register for it, or code alone, when there is
no value. -/
structure Fragment.Fits (typed : Prop) (ty : Ty) (labels : List String) (fragment : Lowered) : Prop where
  code : Code.Proper typed labels fragment.code
  operand : ∀ operand, fragment = .inline operand → operand.Proper typed labels
  register : typed → ∀ code register, fragment = .value code register → register.Serves ty.isFloat
  alone : typed → ∀ code, fragment = .effect code → ty.isVoid = true

/-- What stands for a value, and not for an address: an operand is a constant or in memory. -/
structure Fragment.Proper (typed : Prop) (ty : Ty) (labels : List String) (fragment : Lowered) : Prop
    extends Fits typed ty labels fragment where
  plain : typed → ∀ operand, fragment = .inline operand →
    (∃ value, operand = .imm value) ∨ ∃ size address, operand = .mem size address

namespace Fragment

variable {typed : Prop} {ty other : Ty} {labels more : List String} {fragment : Lowered} {code : Code}
  {tgt source : Register}

section

variable (fits : Fits typed ty labels fragment)

include fits

theorem Fits.retype (same : typed → ty.scalar?.isSome = true ∧ ty.isFloat = other.isFloat) :
    Fits typed other labels fragment where
  code := fits.code
  operand := fits.operand
  register := fun is code r shaped => (same is).2 ▸ fits.register is code r shaped
  alone := fun is code shaped => by
    have void := fits.alone is code shaped
    rw [Ty.isVoid_of_scalar? (same is).1] at void
    cases void

theorem Fits.operand? {operand : Operand}
    (found : fragment.operand? .reg = some operand) : operand.Proper typed labels := by
  cases fragment with
  | inline inner =>
    cases found
    exact fits.operand _ rfl
  | value code r =>
    cases found
    exact Operand.proper_reg.mpr fun is => (fits.register is _ _ rfl).valid
  | effect => cases found

/-- Only a node without a value gives code alone. -/
theorem Fits.shape
    (valued : typed → ty.scalar?.isSome = true) (is : typed) : fragment.shape ≠ .effect := by
  cases fragment with
  | inline | value => simp [Fragment.shape]
  | effect code =>
    have void := fits.alone is code rfl
    rw [Ty.isVoid_of_scalar? (valued is)] at void
    cases void

end

theorem proper_imm (v : Int64) : Proper typed ty labels (.inline (.imm v)) where
  code := Code.proper_nil
  operand := by
    rintro _ ⟨⟩
    simp
  register := fun _ _ _ same => by cases same
  alone := fun _ _ same => by cases same
  plain := by
    rintro _ _ ⟨⟩
    exact .inl ⟨v, rfl⟩

theorem fits_place (proper : address.Proper typed labels) :
    Fits typed ty labels (.inline (.place address)) where
  code := Code.proper_nil
  operand := by
    rintro _ ⟨⟩
    simpa using proper
  register := fun _ _ _ same => by cases same
  alone := fun _ _ same => by cases same

theorem proper_mem (proper : address.Proper typed labels) :
    Proper typed ty labels (.inline (.mem size address)) where
  code := Code.proper_nil
  operand := by
    rintro _ ⟨⟩
    simpa using proper
  register := fun _ _ _ same => by cases same
  alone := fun _ _ same => by cases same
  plain := by
    rintro _ _ ⟨⟩
    exact .inr ⟨size, address, rfl⟩

theorem proper_value (proper : Code.Proper typed labels code)
    (serves : typed → tgt.Serves ty.isFloat) : Proper typed ty labels (.value code tgt) where
  code := proper
  operand := fun _ same => by cases same
  register := by
    rintro is _ _ ⟨⟩
    exact serves is
  alone := fun _ _ same => by cases same
  plain := fun _ _ same => by cases same

theorem proper_effect (proper : Code.Proper typed labels code) (alone : typed → ty.isVoid = true) :
    Proper typed ty labels (.effect code) where
  code := proper
  operand := fun _ same => by cases same
  register := fun _ _ _ same => by cases same
  alone := fun is _ _ => alone is
  plain := fun _ _ same => by cases same

section

variable (proper : Proper typed ty labels fragment)

include proper

theorem Proper.retype (same : typed → ty.scalar?.isSome = true ∧ ty.isFloat = other.isFloat) :
    Proper typed other labels fragment := ⟨proper.toFits.retype same, proper.plain⟩

theorem Proper.congr (same : typed → ty = other) : Proper typed other labels fragment where
  code := proper.code
  operand := proper.operand
  register := fun is => same is ▸ proper.register is
  alone := fun is => same is ▸ proper.alone is
  plain := proper.plain

/-- Code goes in front of a value, and none in front of anything. -/
theorem Proper.prepend? (before : Code.Proper typed labels code)
    (shaped : code ≠ [] → fragment.shape = .value) :
    ∃ whole, fragment.prepend? code = some whole ∧ Proper typed ty labels whole := by
  cases code with
  | nil => exact ⟨fragment, rfl, proper⟩
  | cons line rest =>
    cases fragment with
    | inline | effect => exact absurd (shaped (by simp)) (by simp [Fragment.shape])
    | value own r =>
      refine ⟨_, rfl, proper_value (Code.proper_append.mpr ⟨before, proper.code⟩) fun is => ?_⟩
      exact proper.register is own r rfl

end

theorem Fits.settle (fits : Fits typed ty labels fragment)
    (targeted : typed → tgt.Serves ty.isFloat) :
    Proper typed ty labels (Lower.settle fragment tgt) := by
  cases fragment with
  | inline operand =>
    exact proper_value (Lower.move_proper (Register.named_of_serves targeted)
      (fits.operand operand rfl)) targeted
  | value code source =>
    have before : Code.Proper typed labels code := fits.code
    have serves := fun is => fits.register is code source rfl
    simp only [Lower.settle]
    split
    · exact proper_value before serves
    · refine proper_value (Code.proper_append.mpr ⟨before, ?_⟩) targeted
      exact Lower.moveRegister_proper targeted fun is => (serves is).resize (targeted is).pooled
  | effect code => exact proper_effect fits.code fun is => fits.alone is code rfl

end Fragment

end Nasm64
