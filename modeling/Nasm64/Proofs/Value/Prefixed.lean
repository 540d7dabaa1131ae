import Nasm64.Proofs.Conversion.Integer
import Nasm64.Proofs.Value.Node

/-! The values of literals, variables, casts and the operators in front of an operand. -/
namespace Nasm64

open Lower Word Machine Conversion

/-- Integers, booleans and addresses, which depend on the variables in scope. -/
def Ground.integral (world : World) (scope : List (String × Variable)) : Ground where
  float := false
  world := world
  holds := fun machine => machine.Hosts scope
  steady := fun hosts within => within.hosts hosts

namespace Lowering

/-- The registers that may receive the value of an integral node: one of the pool, and the scratch
register when the node is a leaf. -/
def Accepts (node : Lowering) : List Register → Prop
  | [] => False
  | top :: _ => top.family ∈ Register.poolFamilies false ∨ node.isLeaf = true ∧ top.family = .r11

theorem Accepts.pooled {node : Lowering} {top : Register} (accepts : node.Accepts (top :: held)) :
    top.family ∈ .r11 :: Register.poolFamilies false :=
  accepts.elim (List.mem_cons_of_mem _) fun leaf => leaf.2 ▸ List.mem_cons_self

/-- A node of integral type whose code computes a meaning. -/
structure Integral (node : Lowering) (env : Env) (world : World) (scope : List (String × Variable))
    (weight : Nat) (meaning : Meaning) : Prop where
  integral : node.type.isIntegral = true
  computes : node.Computes env (.integral world scope) scope weight meaning node.Accepts

structure Ready (node : Lowering) (scope : List (String × Variable)) (frame : Frame) (top : Register)
    (held : List Register) : Prop where
  visible : frame.scope = scope
  ordinary : frame.Ordinary
  innermost : frame.held = top :: held
  accepts : node.Accepts (top :: held)

theorem Ready.accepted {node : Lowering} {frame : Frame} {top : Register}
    (ready : node.Ready scope frame top held) :
    node.Accepts (top.resize size :: frame.held) := ready.accepts

theorem Ready.working {node : Lowering} {top : Register} {ty : Ty}
    (ready : node.Ready scope frame top held) (integral : ty.isIntegral = true) :
    (top.resize ty.registerSize).Working false :=
  .of_width ready.accepts.pooled (Ty.registerSize_cases integral)

end Lowering

namespace Lower

variable {env : Env} {w : World} {frame : Frame} {scope : List (String × Variable)} {weight : Nat}
  {meaning inner : Meaning} {top : Register} {held : List Register} {node : Lowering}

/-- A constant of a type, however it is written. -/
theorem lowerNumber_delivers (integer : ty.isInteger = true)
    (means : ∀ m result, meaning m = some result → low ty.bytes value.toBitVec = result) :
    Answers (lowerNumber pos value ty) env frame (.integral w scope) weight
      ⟨family, ty.registerSize⟩ meaning := by
  have integral := Ty.isIntegral_of_isInteger integer
  have nonzero : ty.registerSize ≠ 0 := by
    have := Ty.registerSize_cases integral
    omega
  refine ⟨_, frame, yields_lowerNumber.mpr
    (.inr ⟨Ty.isFloat_of_isIntegral integral, nonzero, rfl, rfl⟩), .constant rfl ?_⟩
  intro m result _ meant
  rw [← Ty.bytes_cast integral, toBitVec_fold (Ty.bytes_cases integral), Int.toNat_natCast,
    low_extend (Nat.le_refl _)]
  exact means m result meant

theorem lowerVariable_delivers (visible : frame.scope = scope)
    (found : scope.lookup name = some slot) (scalar : slot.type.isScalar = true)
    (means : ∀ m result, meaning m = some result → m.local? scope name = some result) :
    Answers (lowerVariable pos name) env frame ground weight ⟨family, slot.type.registerSize⟩
      meaning := by
  have single : slot.type.isArray = false := by
    cases same : slot.type with
    | array => rw [same] at scalar; cases scalar
    | prim | pointer | void | struct => rfl
  have seen : frame.find? name = some slot := by rw [Frame.find?, visible, found]
  refine ⟨_, _, yields_lowerVariable.mpr ⟨slot, seen, .inr ⟨single, scalar, rfl, rfl⟩⟩,
    .memory (.slot _) ?_⟩
  intro m result _ meant
  have address : m.address ground.world (.frameSlot slot.offset) = m.slotAddress slot := by
    simp [address, start, Address.frameSlot, Register.framePointer,
      slotAddress, BitVec.sub_eq_add_neg]
  have known := means m result meant
  rw [local?_of_found found scalar, Option.some.injEq] at known
  rw [address]
  exact known

theorem destination_yields (innermost : frame.held = top :: held)
    (class_ : top.isFloat = ty.isFloat) :
    Yields (destination pos ty) env frame (top.resize ty.registerSize) frame :=
  yields_destination.mpr (.inl ⟨top, by rw [innermost]; rfl, class_, rfl, rfl⟩)

/-- An operator in front of an operand, from what its instruction does to the register. -/
theorem lowerUnaryValue_delivers (computes : node.Computes env ground scope weight inner admits)
    (visible : frame.scope = scope) (ordinary : frame.Ordinary)
    (innermost : frame.held = top :: held)
    (admitted : admits (top.resize ty.registerSize :: frame.held))
    (class_ : ty.isFloat = ground.float) (width : ty.registerSize = node.type.registerSize)
    (plain : ∀ target : Register, target.Working ground.float → (unaryCode op target).1.IsPlain)
    (steps : ∀ (m middle : Machine) (value : BitVec 64) (target : Register), ground.holds m →
      inner m = some value → target.Working ground.float → target.family = top.family →
      target.size = ty.registerSize → middle.view target = value →
      ∃ after, middle.run ground.world (unaryCode op target).1 = some after ∧
      after.view target = compute value) :
    Answers (lowerUnaryValue pos op node ty) env frame ground weight ⟨top.family, ty.registerSize⟩
      (fun m => (inner m).map compute) := by
  have pooled := computes.working admitted
  have working : (top.resize ty.registerSize).Working ground.float :=
    ⟨pooled, width ▸ computes.supported⟩
  have alike : top.isFloat = ty.isFloat := working.isFloat.trans class_.symm
  obtain ⟨code, after, into, loads⟩ := computes.into_loads frame (top.resize ty.registerSize) visible
    ordinary admitted width
  refine ⟨_, _, yields_lowerUnaryValue.mpr ⟨_, _, destination_yields innermost alike,
    code, after, into, rfl, rfl⟩, .computed (loads.plain.append (plain _ working)) ?_⟩
  intro m result holds room meant
  obtain ⟨value, valued, rfl⟩ := Option.map_eq_some_iff.mp meant
  obtain ⟨middle, ran, _, view⟩ := loads.runs m value holds room valued
  obtain ⟨final, steps, computed⟩ := steps m middle value _ holds valued working rfl rfl view
  exact ⟨final, run_join ran steps, computed⟩

section

variable (computes : node.Integral env w scope weight inner)
  (ready : node.Ready scope frame top held) (typed : node.type = ty)

include computes ready typed

theorem negate_delivers :
    Answers (lowerUnaryValue pos .negate node ty) env frame (.integral w scope) weight
      ⟨top.family, ty.registerSize⟩ fun m => (inner m).map fun value => low ty.bytes (-value) := by
  subst typed
  refine lowerUnaryValue_delivers computes.computes ready.visible ready.ordinary ready.innermost
    ready.accepted (Ty.isFloat_of_isIntegral computes.integral) rfl ?_ ?_
  · intro target working
    have general : target.isFloat = false := working.isFloat
    simp only [unaryCode, general, Bool.false_eq_true, if_false]
    exact .singleton rfl
  · intro m mid value target _ _ working _ width view
    have general : target.isFloat = false := working.isFloat
    simp only [unaryCode, general, Bool.false_eq_true, if_false]
    obtain ⟨after, stepped, wrote⟩ := step_neg w mid working
    refine ⟨after, run_singleton stepped, ?_⟩
    rw [wrote.view, ← view, Machine.view, Ty.bytes, ← width, Word.low_neg]
    rcases working.bytes with same | same | same | same <;> omega

theorem complement_delivers :
    Answers (lowerUnaryValue pos .complement node ty) env frame (.integral w scope) weight
      ⟨top.family, ty.registerSize⟩ fun m => (inner m).map fun value =>
      low ty.bytes (~~~value) := by
  subst typed
  refine lowerUnaryValue_delivers computes.computes ready.visible ready.ordinary ready.innermost
    ready.accepted (Ty.isFloat_of_isIntegral computes.integral) rfl (fun _ _ => .singleton rfl) ?_
  intro m mid value target _ _ working _ width view
  obtain ⟨after, stepped, wrote⟩ := step_not w mid working
  refine ⟨after, run_singleton stepped, ?_⟩
  rw [wrote.view, ← view, Machine.view, Ty.bytes, ← width, Word.low_not]
  rcases working.bytes with same | same | same | same <;> omega

end

/-- A boolean is negated by flipping its lowest bit. -/
theorem not_delivers (computes : node.Integral env w scope weight inner)
    (isBool : node.type.registerSize = 1)
    (boolean : ∀ (m : Machine) (value : BitVec 64), m.Hosts scope → inner m = some value →
      value = 0 ∨ value = 1)
    (ready : node.Ready scope frame top held) :
    Answers (lowerUnaryValue pos .not node (.prim .bool)) env frame (.integral w scope) weight
      ⟨top.family, (Ty.prim .bool).registerSize⟩ (fun m => (inner m).map fun value => if value =
      0 then 1 else 0) := by
  refine lowerUnaryValue_delivers computes.computes ready.visible ready.ordinary ready.innermost
    ready.accepted rfl (isBool ▸ rfl) (fun _ _ => .singleton rfl) ?_
  intro m mid value target hosts valued working _ width view
  obtain ⟨fam, size⟩ := target
  obtain rfl : size = 1 := width
  have known : Mnemonic.xor.arithmetic? = some fun _ first second => first ^^^ second := rfl
  have fetched : mid.fetch w 1 (.imm 1) = some 1 := rfl
  obtain ⟨after, stepped, wrote⟩ := step_arithmetic w mid working known (by simp)
    fetched
  refine ⟨after, run_singleton stepped, ?_⟩
  have bits : (mid.reg fam).setWidth (8 * 1) = value.setWidth (8 * 1) := by
    rw [← view]
    exact setWidth_low.symm
  rw [wrote.view, Word.apply, low_setWidth]
  refine (congrArg (fun word : BitVec 8 => (word ^^^ 1).setWidth 64) bits).trans ?_
  rcases boolean m value hosts valued with rfl | rfl <;> rfl

end Lower

namespace Conversion

open Lower

variable {source target : Primitive} {destination : Register}

section Widening

variable {w : World} {m : Machine} {operand : Operand} {value : BitVec 64}

theorem widening_runs (working : (destination.resize target.bytes).Working false)
    (wider : source.bytes < target.bytes) (sized : width? operand = some (source.bytes : Int))
    (found : m.read w source.bytes operand = some value) :
    ∃ after, m.run w (widening source target operand destination) = some after ∧
      after.view (destination.resize target.bytes) =
        Word.low target.bytes (Word.extend source.isSigned source.bytes value) := by
  obtain ⟨after, executed, leaves⟩ := widening_executes working.general wider sized found
  exact ⟨after, run_of_execute executed (widening_aside working.aside), leaves.view⟩

theorem widening_plain : (widening source target operand destination).IsPlain := by
  have doubles : ∀ other, (doubling source.isSigned destination other).isPlain = true := by
    intro other
    unfold doubling
    split <;> rfl
  intro line mem
  unfold widening at mem
  split at mem
  · split at mem
    · rw [List.mem_singleton.mp mem]
      exact doubles _
    · rcases List.mem_cons.mp mem with rfl | last
      · rfl
      · rw [List.mem_singleton.mp last]
        exact doubles _
  · rw [List.mem_singleton.mp mem]
    rfl

end Widening

def recast (source target : Primitive) (value : BitVec 64) : BitVec 64 :=
  Word.low target.bytes (Word.extend source.isSigned source.bytes value)

section

variable {w : World} {scope : List (String × Variable)} {weight : Nat} {meaning : Meaning}
  {fragment : Lowered} {top : Family}

/-- Narrowing reads the low bytes of a value where they are. -/
theorem narrowed_delivers (narrower : target.bytes ≤ source.bytes)
    (delivers : Delivers (.integral w scope) weight top source.bytes meaning fragment) :
    ∃ origin converted, conversionSource? source.bytes fragment = some origin ∧
      (review (.prim target) origin).prepend? fragment.code = some converted ∧
      Delivers (.integral w scope) weight top target.bytes (fun m =>
        (meaning m).map (recast source target)) converted := by
  have narrow : ∀ value, recast source target value = low target.bytes value :=
    fun _ => low_extend narrower
  cases delivers with
  | @constant constant _ means =>
    refine ⟨_, _, rfl, rfl, .constant rfl ?_⟩
    intro m result hosts meant
    obtain ⟨value, valued, rfl⟩ := Option.map_eq_some_iff.mp meant
    rw [narrow, ← means m value hosts valued]
    refine Eq.trans ?_ (low_low narrower).symm
    exact (congrArg (low _) (toBitVec_fold (bytes_cases target))).trans
      (low_extend (Nat.le_refl _))
  | @memory address fixed means =>
    refine ⟨_, _, rfl, rfl, .memory fixed ?_⟩
    intro m result hosts meant
    obtain ⟨value, valued, rfl⟩ := Option.map_eq_some_iff.mp meant
    rw [narrow, ← means m value hosts valued]
    exact (Memory.low_load narrower).symm
  | @computed code plain leaves =>
    refine ⟨_, _, rfl, prepend?_value _ _ _, .computed (plain.append .nil) ?_⟩
    intro m result hosts room meant
    obtain ⟨value, valued, rfl⟩ := Option.map_eq_some_iff.mp meant
    obtain ⟨after, ran, view⟩ := leaves m value hosts room valued
    refine ⟨after, run_join ran rfl, ?_⟩
    rw [narrow, ← view]
    exact (low_low narrower).symm

/-- Widening is code, unless the value is a constant. -/
theorem widened_delivers (wider : source.bytes < target.bytes)
    (working : (⟨top, target.bytes⟩ : Register).Working false)
    (delivers : Delivers (.integral w scope) weight top source.bytes meaning fragment) :
    ∃ origin converted, conversionSource? source.bytes fragment = some origin ∧
      (apply (.prim source) (.prim target) (integerRule source target) origin
        ⟨top, target.bytes⟩).prepend? fragment.code = some converted ∧
      Delivers (.integral w scope) weight top target.bytes (fun m =>
        (meaning m).map (recast source target)) converted := by
  cases delivers with
  | @constant constant _ means =>
    refine ⟨_, _, rfl, congrArg (Fragment.prepend? []) (apply_extends wider _), .constant rfl ?_⟩
    intro m result hosts meant
    obtain ⟨value, valued, rfl⟩ := Option.map_eq_some_iff.mp meant
    simp only [recast, ← means m value hosts valued, Int.toNat_natCast, Word.extend_low]
    exact congrArg (Word.low _) (Word.toBitVec_fold (bytes_cases source))
  | @memory address fixed means =>
    refine ⟨_, _, rfl, congrArg (Fragment.prepend? []) (apply_extends wider _),
      .computed (widening_plain) ?_⟩
    intro m result hosts _ meant
    obtain ⟨value, valued, rfl⟩ := Option.map_eq_some_iff.mp meant
    have found := (content_mem false w m source.bytes address).trans
      (congrArg some (means m value hosts valued))
    exact widening_runs working wider rfl found
  | @computed code plain leaves =>
    refine ⟨_, _, rfl, (congrArg (Fragment.prepend? code) (apply_extends wider _)).trans
      (prepend?_value _ _ _), .computed (plain.append (widening_plain)) ?_⟩
    intro m result hosts room meant
    obtain ⟨value, valued, rfl⟩ := Option.map_eq_some_iff.mp meant
    obtain ⟨middle, ran, view⟩ := leaves m value hosts room valued
    have staged : (⟨top, source.bytes⟩ : Register).Working false :=
      working.resize (by rcases bytes_cases source with same | same | same | same <;> simp [same])
    have found := (Machine.read_reg w middle staged).trans (congrArg some view)
    have widened : ∃ after,
        middle.run w (widening source target (.reg ⟨top, source.bytes⟩) ⟨top, target.bytes⟩) =
          some after ∧ after.view ⟨top, target.bytes⟩ = recast source target value :=
      widening_runs working wider rfl found
    obtain ⟨after, widened, result⟩ := widened
    exact ⟨after, Machine.run_join ran widened, result⟩

theorem converted_delivers (working : (⟨top, target.bytes⟩ : Register).Working false)
    (delivers : Delivers (.integral w scope) weight top source.bytes meaning fragment) :
    ∃ origin converted, conversionSource? source.bytes fragment = some origin ∧
      convertedCode (.prim source) (.prim target) (integerRule source target) origin
        ⟨top, target.bytes⟩ fragment = some converted ∧
      Delivers (.integral w scope) weight top target.bytes (fun m =>
        (meaning m).map (recast source target)) converted := by
  rcases Nat.lt_or_ge source.bytes target.bytes with wider | narrower
  · exact widened_delivers wider working delivers
  · obtain ⟨origin, converted, found, same, delivered⟩ := narrowed_delivers narrower delivers
    refine ⟨origin, converted, found, ?_, delivered⟩
    rw [← same]
    exact congrArg (Fragment.prepend? _) (apply_reviews (integerRule_reviews narrower))

end

end Conversion

namespace Lower

variable {env : Env} {w : World} {frame : Frame} {scope : List (String × Variable)} {weight : Nat}
  {inner : Meaning} {top : Register} {held : List Register} {node : Lowering}
  {source target : Primitive}

theorem unchanged_delivers
    (delivers : Delivers (.integral w scope) weight family source.bytes inner fragment) :
    Delivers (.integral w scope) weight family source.bytes (fun m =>
      (inner m).map (recast source source)) fragment := by
  have narrow : ∀ value, recast source source value = low source.bytes value :=
    fun _ => low_extend (Nat.le_refl _)
  cases delivers with
  | constant _ means =>
    refine .constant rfl fun m result hosts meant => ?_
    obtain ⟨value, valued, rfl⟩ := Option.map_eq_some_iff.mp meant
    rw [narrow, ← means m value hosts valued]
    exact (low_low (Nat.le_refl _)).symm
  | memory fixed means =>
    refine .memory fixed fun m result hosts meant => ?_
    obtain ⟨value, valued, rfl⟩ := Option.map_eq_some_iff.mp meant
    rw [narrow, ← means m value hosts valued]
    exact (Memory.low_load (Nat.le_refl _)).symm
  | computed plain leaves =>
    refine .computed plain fun m result hosts room meant => ?_
    obtain ⟨value, valued, rfl⟩ := Option.map_eq_some_iff.mp meant
    obtain ⟨after, ran, view⟩ := leaves m value hosts room valued
    refine ⟨after, ran, ?_⟩
    rw [narrow, ← view]
    exact (low_low (Nat.le_refl _)).symm

theorem lowerCast_delivers (computes : node.Integral env w scope weight inner)
    (origin : node.type = .prim source) (numbers : source.isInteger = true ∨ source = .bool)
    (integer : target.isInteger = true) (ready : node.Ready scope frame top held) :
    Answers (lowerCast pos node (.prim target)) env frame (.integral w scope) weight
      ⟨top.family, (Ty.prim target).registerSize⟩ (fun m =>
      (inner m).map (recast source target)) := by
  have integral : (Ty.prim target).isIntegral = true := Ty.isIntegral_of_isInteger integer
  have working := ready.working integral
  have class_ := working.isFloat.trans (Ty.isFloat_of_isIntegral integral).symm
  have general : (top.resize (Ty.prim target).registerSize).isFloat = node.type.isFloat :=
    working.isFloat.trans (Ty.isFloat_of_isIntegral computes.integral).symm
  have size : node.type.registerSize = source.bytes := by rw [origin, Ty.registerSize_prim]
  by_cases same : source = target
  · subst same
    obtain ⟨fragment, next, run, delivers⟩ := computes.computes.delivers frame ready.visible ready.ordinary
      ready.innermost ready.accepts
    rw [size] at delivers
    refine ⟨fragment, next, yields_lowerCast.mpr (.inl ⟨by rw [origin]; rfl, by rw [origin], run⟩), ?_⟩
    dsimp only
    rw [Ty.registerSize_prim]
    exact unchanged_delivers delivers
  · have used : frame.inUse top.family = true :=
      Frame.inUse_iff.mpr ⟨top, by simp [ready.innermost], rfl⟩
    have unheld : frame.hold (top.resize (Ty.prim target).registerSize) = frame := if_pos used
    obtain ⟨fragment, after, run, delivers⟩ := computes.computes.delivers
      (frame.push (top.resize node.type.registerSize)) ready.visible
      (ready.ordinary.push working.ordinary) rfl ready.accepts
    rw [size] at delivers
    rw [Ty.registerSize_prim] at working ⊢
    obtain ⟨start, converted, found, code, delivered⟩ := converted_delivers working delivers
    obtain ⟨warnings, warned⟩ := warnCast_runs pos node.type (.prim target) env
      (after.pop.touchScratch (integerRule source target).kind)
    refine ⟨converted, _, yields_lowerCast.mpr (.inr ⟨?_, rfl, .inl (by rw [origin]; rfl), _,
      by rw [origin]; exact between_integers numbers integer same, _, frame,
      destination_yields ready.innermost class_, _, frame, ?_, fragment, after,
      run, start, by rw [size]; exact found, ?_, _, warned, rfl⟩), delivered⟩
    · rw [origin]
      rintro ⟨_, equal⟩
      cases equal
      exact same rfl
    · exact yields_workFor.mpr (.inl ⟨general, rfl, unheld.symm⟩)
    · rw [origin, Ty.registerSize_prim]
      exact code

end Lower
end Nasm64
