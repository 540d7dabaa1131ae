import Nasm64.Proofs.Machine.Held
import Nasm64.Proofs.Value.Prefixed
import Nasm64.Proofs.Value.Term

/-! The code of a float expression computes the term that mirrors it, whatever the operations on
floats are. -/
namespace Nasm64

open Lower

/-- What terms of one precision are read in: the variables in scope and literals in memory. Nothing is
said about values unless registers are spared. -/
structure Surroundings where
  spared : Prop
  world : World
  scope : List (String × Variable)
  precision : Primitive
  literal : Double → BitVec 64
  values : List Double
  isFloat : precision.isFloat = true
  narrow : world.IsNarrow

namespace Surroundings

variable (around : Surroundings)

def ground : Ground where
  float := true
  world := around.world
  holds := fun machine => around.spared ∧ machine.Shelters around.scope ∧
    machine.Stores around.world around.precision around.literal around.values
  steady := fun holds within => ⟨holds.1, within.shelters holds.2.1, within.stores holds.2.2⟩

def meaning (term : Term) : Meaning := fun machine =>
  some (term.value (machine.reading around.world around.scope around.precision around.literal))

theorem meaning_fixed (term : Term) : around.ground.Fixes (around.meaning term) := by
  intro m next holds within
  simp only [meaning, Machine.reading, within.local? holds.2.1]

theorem meaning_apply (op : Operator) (first second : Term) :
    around.meaning (.apply op first second) =
      .join (fun left right => some (around.world.operate around.precision op left right))
      (around.meaning first) (around.meaning second) := rfl

theorem inPool : Register.inPool true around.precision.bytes = true := by
  have isFloat := around.isFloat
  cases same : around.precision <;> rw [same] at isFloat <;> first | rfl | cases isFloat

end Surroundings

namespace Machine

variable {w : World} {m : Machine} {dst : Register}

/-- Moving the scratch register moves the low bytes of it. -/
theorem scratchMove_runs (w : World) (m : Machine) (working : dst.Working true) :
    ∃ next,
      step w m (.binary (if dst.size == 4 then .movss else .movsd) (.reg dst) (.reg .floatScratch))
        = some next ∧ next.view dst = Word.low dst.size.toNat (m.reg (.float 7)) := by
  have width : dst.size = 4 ∨ dst.size = 8 := by
    simpa [Register.inPool] using working.supported
  rcases width with same | same
  · have moves : m.floating w .movss dst (.reg .floatScratch) =
        some ((m.reg dst.family >>> 32) <<< 32 ||| Word.low 4 (m.reg (.float 7)),
          m.flags) := rfl
    obtain ⟨next, stepped, sets⟩ := step_floating w m working (by decide) moves
    refine ⟨next, by rw [same]; exact stepped, ?_⟩
    rw [sets.view, same]
    exact Word.low_merge _ _
  · have moves : m.floating w .movsd dst (.reg .floatScratch) =
        some (m.reg (.float 7), m.flags) := rfl
    obtain ⟨next, stepped, sets⟩ := step_floating w m working (by decide) moves
    exact ⟨next, by rw [same]; exact stepped, sets.view⟩

/-- A float is negated by subtracting it from the scratch register, which is cleared first. -/
theorem negation_runs (narrow : w.IsNarrow) (isFloat : precision.isFloat = true)
    (working : dst.Working true) (pooled : dst.family ∈ Register.poolFamilies true)
    (size : dst.size = precision.bytes) (view : m.view dst = value) :
    ∃ after, m.run w (unaryCode .negate dst).1 = some after ∧
      after.view dst = w.operate precision .sub 0 value := by
  have scratch : Register.floatScratch.Working true := ⟨List.mem_cons_self, rfl⟩
  have apart : dst.family ≠ Register.floatScratch.family := Register.not_staging pooled
  obtain ⟨mnemonic, known, _, narrows⟩ := Primitive.arithmetic_operation isFloat (.inr (.inl rfl))
  have subtracts : mnemonic = if dst.size == 4 then .subss else .subsd := by
    rw [size]
    cases precision with
    | f32 | f64 => exact (Option.some.inj known).symm
    | _ => cases isFloat
  have bytes : dst.size.toNat = precision.bytes := by rw [size, Int.toNat_natCast]
  have clearing : m.floating w .xorps .floatScratch (.reg .floatScratch) =
      some (0, m.flags) := by
    simp [floating, floatOperand, scratch.isFloat]
  obtain ⟨cleared, clears, clear⟩ := step_floating w m scratch (by decide) clearing
  have zero : cleared.reg (.float 7) = 0 := Word.low_eight.symm.trans clear.view
  have read : cleared.floatOperand w (.reg dst) = some (m.reg dst.family) := by
    rw [← clear.others _ apart]
    simp [floatOperand, working.isFloat]
  obtain ⟨plain, subtracting⟩ := floating_arithmetic (narrows.imp And.right And.right) read
  obtain ⟨subtracted, stepped, difference⟩ := step_floating w cleared scratch plain subtracting
  have result : subtracted.reg (.float 7) = w.float mnemonic 0 (m.reg dst.family) := by
    rw [← zero]
    exact (Word.low_eight.symm.trans difference.view).trans Word.low_eight
  obtain ⟨after, moves, moved⟩ := scratchMove_runs w subtracted working
  refine ⟨after, ?_, ?_⟩
  · simp only [unaryCode, working.isFloat, if_true, ← subtracts]
    exact run_cons clears (run_cons stepped (run_singleton moves))
  · rw [moved, bytes, result, float_low narrow narrows, ← view, Machine.view, bytes]
    simp [World.operate, known, Word.low]

end Machine

namespace Expr

variable {around : Surroundings} {env : Env} {expr : Expr} {term : Term}

/-- The registers that may receive the value of a float expression: one of the pool when those that
are left suffice, and the scratch register for a leaf that is not negated. -/
def Endures (spared : Prop) (expr : Expr) : List Register → Prop
  | [] => False
  | top :: held =>
    top.family ∈ Register.poolFamilies true ∧
        (spared → expr.survives (Register.idle (top :: held)) = true) ∨
      expr.isLeaf = true ∧ top.family = Register.staging true ∧ (spared → expr.isNegated = false)

abbrev Figures (around : Surroundings) (env : Env) (expr : Expr) (term : Term) : Prop :=
  expr.lowering.Computes env around.ground around.scope (expr.burden env) (around.meaning term)
    (expr.Endures around.spared)

theorem Mirrors.figures_of (mirrors : expr.Mirrors around.scope around.precision term)
    (delivers : ∀ {frame : Frame} {top : Register} {held : List Register},
      frame.scope = around.scope → frame.Ordinary → frame.held = top :: held →
      expr.Endures around.spared (top :: held) →
      Answers expr.lowering.value env frame around.ground (expr.burden env)
        ⟨top.family, (Ty.prim around.precision).registerSize⟩ (around.meaning term)) :
    expr.Figures around env term where
  brackets := expr.lowering_brackets env
  supported := by
    rw [lowering_type, mirrors.type_eq, Ty.registerSize_prim]
    exact around.inPool
  fixed := around.meaning_fixed term
  working := by
    rintro top held (⟨pooled, _⟩ | ⟨_, scratch, _⟩)
    · exact List.mem_cons_of_mem _ pooled
    · exact scratch ▸ List.mem_cons_self
  delivers := by
    intro frame top held visible ord innermost endures
    rw [lowering_type, mirrors.type_eq]
    exact delivers visible ord innermost endures

section

variable {pos : Position}

theorem ident_figures (found : around.scope.lookup name = some slot)
    (typed : slot.type = .prim around.precision) :
    (ident pos name (.prim around.precision)).Figures around env (.ident name) := by
  refine Mirrors.figures_of (.ident found typed) fun visible _ _ _ => ?_
  have scalar : slot.type.isScalar = true := by rw [typed]; rfl
  rw [← typed]
  refine lowerVariable_delivers visible found scalar fun m res meant => ?_
  cases meant
  simp only [Term.value, Machine.reading, Machine.local?_of_found found scalar, Option.getD_some]

theorem float_figures (stored : v ∈ around.values) :
    (float pos v (.prim around.precision)).Figures around env (.literal v) := by
  refine Mirrors.figures_of .float fun visible _ _ _ => ?_
  refine ⟨_, _, yields_lowerFloat.mpr ⟨rfl, rfl⟩, .memory (.label _) ?_⟩
  intro m res holds meant
  cases meant
  rw [Ty.registerSize_prim, Int.toNat_natCast, Machine.address_atLabel]
  exact holds.2.2.holds v stored

theorem negate_figures (inner : operand.Mirrors around.scope around.precision term)
    (computed : ∀ pos val ty, operand ≠ .float pos val ty)
    (figures : operand.Figures around env term) :
    (unary pos .negate operand).Figures around env (.apply .sub .zero term) := by
  refine Mirrors.figures_of (.negate inner computed) fun {frame top held} visible ordinary
    innermost endures => ?_
  have typed : operand.lowering.type = .prim around.precision := by rw [lowering_type, inner.type_eq]
  have same : Register.idle (top.resize (Ty.prim around.precision).registerSize :: frame.held) =
      Register.idle (top :: held) := by
    rw [innermost]
    exact Register.idle_of_used ⟨top, List.mem_cons_self, rfl⟩
  have admitted : operand.Endures around.spared
      (top.resize (Ty.prim around.precision).registerSize :: frame.held) := by
    rcases endures with ⟨pooled, survives⟩ | ⟨leaf, scratch, negated⟩
    · exact .inl ⟨pooled, fun spared => by rw [same]; exact survives spared⟩
    · exact .inr ⟨leaf, scratch, fun spared => nomatch negated spared⟩
  have folds : foldedNegation (.prim around.precision) (operand.constant?.map Constant.negate) =
      none := by
    rw [inner.constant?_eq_none computed]
    rfl
  have delivered : Answers (lowerUnaryValue pos .negate operand.lowering (.prim around.precision))
      env frame around.ground (operand.burden env)
      ⟨top.family, (Ty.prim around.precision).registerSize⟩
      (fun m => (around.meaning term m).map (around.world.operate around.precision .sub 0)) := by
    refine lowerUnaryValue_delivers figures visible ordinary innermost admitted around.isFloat
      (by rw [typed]) ?_ ?_
    · intro dst working
      have class_ : dst.isFloat = true := working.isFloat
      simp only [unaryCode, class_, if_true]
      split <;> exact .cons rfl (.cons rfl (.singleton rfl))
    · intro m middle val dst holds _ working family size view
      have pooled : dst.family ∈ Register.poolFamilies true := by
        rcases endures with ⟨pooled, _⟩ | ⟨_, _, negated⟩
        · exact family ▸ pooled
        · exact nomatch negated holds.1
      rw [Ty.registerSize_prim] at size
      exact Machine.negation_runs around.narrow around.isFloat working pooled size view
  refine delivered.imp fun run => ?_
  refine yields_lowerNegate.mpr ⟨.inr (by rw [typed]; exact around.isFloat), .inr ⟨?_, ?_⟩⟩
  · rw [typed, folds]
  · rw [typed]
    exact run

variable {op : Operator} {left right : Expr} {first second : Term} {oper : Operation}

/-- An operator of a term is one instruction on the registers that present its operands. -/
theorem float_operates (known : around.precision.instruction? op = some mn)
    (narrows : around.precision.bytes = 4 ∧ mn.isSingle = true ∨ around.precision.bytes = 8 ∧
      mn.isDouble = true) :
    Operates around.ground ⟨op, .floatArith, mn, none, true, none⟩
      (Ty.prim around.precision).registerSize fun left right =>
      some (around.world.operate around.precision op left right) := by
  intro frame work dst opnd m leftValue rightValue res width _ presents _ computed
  cases computed
  have bytes : work.size.toNat = around.precision.bytes := by
    rw [width, Ty.registerSize_prim, Int.toNat_natCast]
  have direct : encoded opnd work.size = ([], opnd) := by
    have encodable : opnd.encodable work.size = true := by
      cases presents.reads <;> rfl
    rw [encoded, if_pos encodable]
  obtain ⟨after, stepped, sets⟩ := Machine.step_arithmeticFloat around.narrow presents.working
    (bytes ▸ narrows) presents.left presents.right
  refine ⟨after, ?_, ?_⟩
  · simp only [Frame.applied, applyDirect, direct, List.nil_append]
    exact Machine.run_singleton stepped
  · rw [World.operate, known, ← bytes]
    exact sets.view

theorem heads_endures (leaf : expr.isLeaf = true) (held : List Register)
    (heads : Register.heads true held) : expr.Endures around.spared held := by
  cases held with
  | nil => exact heads
  | cons top rest => exact .inl ⟨heads, fun _ => survives_of_isLeaf leaf _⟩

theorem Mirrors.operands (lefts : left.Mirrors around.scope around.precision first)
    (rights : right.Mirrors around.scope around.precision second) :
    left.lowering.type = .prim around.precision ∧ right.lowering.type = .prim around.precision := by
  rw [lowering_type, lowering_type]
  exact ⟨lefts.type_eq, rights.type_eq⟩

theorem arithmetic_splits (arithmetic : op = .add ∨ op = .sub ∨ op = .mul ∨ op = .div)
    (lefts : left.Mirrors around.scope around.precision first)
    (rights : right.Mirrors around.scope around.precision second)
    (leftFigures : left.Figures around env first) (rightFigures : right.Figures around env second) :
    (binary pos op left right (.prim around.precision)).Splits env around.ground around.scope
      (around.meaning (.apply op first second)) := by
  rintro _ _ _ _ _ ⟨rfl⟩
  obtain ⟨leftType, rightType⟩ := lefts.operands rights
  obtain ⟨mn, known, defined, narrows⟩ :=
    Primitive.arithmetic_operation around.isFloat arithmetic
  rw [around.meaning_apply]
  refine .intro (fun leaf => leftFigures.weaken ?_ (heads_endures (left.lowering_isLeaf ▸ leaf)))
    (fun leaf => rightFigures.weaken ?_ (heads_endures (right.lowering_isLeaf ▸ leaf)))
    fun {oper} chosen => ?_
  · simp only [burden]
    omega
  · simp only [burden]
    omega
  · rw [leftType, rightType, defined] at chosen
    cases chosen
    rw [leftType]
    exact float_operates known narrows

/-- The strategies leave operands the registers that they need. -/
theorem arithmetic_admits (innermost : frame.held = top :: held)
    (pooled : top.family ∈ Register.poolFamilies true)
    (supported : Register.inPool true left.lowering.type.registerSize = true)
    (survives : around.spared → (binary pos op left right ty).survives (Register.idle (top :: held))
      = true) :
    (Pending.within pos left.lowering right.lowering oper ty top).Admits frame true
      (left.Endures around.spared) (right.Endures around.spared) := by
  have lefts : around.spared → left.survives (Register.idle (top :: held)) = true :=
    fun spared => (Bool.and_eq_true_iff.mp (survives spared)).1
  have rights : around.spared → (if right.isLeaf then !right.isNegated ||
      Register.idle (top :: held) != 0 else right.survives (if left.isLeaf then
        Register.idle (top :: held) - 1 else Register.idle (top :: held))) = true :=
    fun spared => (Bool.and_eq_true_iff.mp (survives spared)).2
  -- The working register is the innermost one, so holding it once more takes nothing away.
  have once : Register.idle (top.resize left.lowering.type.registerSize :: frame.held) =
      Register.idle (top :: held) := by
    rw [innermost]
    exact Register.idle_of_used ⟨top, List.mem_cons_self, rfl⟩
  have twice : Register.idle (top.resize left.lowering.type.registerSize ::
      top.resize left.lowering.type.registerSize :: frame.held) = Register.idle (top :: held) := by
    rw [Register.idle_of_used ⟨_, List.mem_cons_self, rfl⟩, once]
  constructor
  case left => exact .inl ⟨pooled, fun spared => twice ▸ lefts spared⟩
  case leaf =>
    intro isLeaf r seconds
    have leaf : right.isLeaf = true := right.lowering_isLeaf.symm.trans isLeaf
    cases seconds with
    | free found =>
      exact .inl ⟨(Frame.free_fresh found).pooled, fun _ => survives_of_isLeaf leaf _⟩
    | staging none =>
      refine .inr ⟨leaf, rfl, fun spared => ?_⟩
      have exhausted : Register.idle (top :: held) = 0 :=
        once.symm.trans (Frame.exhausted_idle supported none)
      simpa [leaf, exhausted] using rights spared
  case beside =>
    intro notLeaf isLeaf r found
    have composite : right.isLeaf = false := right.lowering_isLeaf.symm.trans notLeaf
    have leaf : left.isLeaf = true := left.lowering_isLeaf.symm.trans isLeaf
    refine .inl ⟨(Frame.free_fresh found).pooled, fun spared => ?_⟩
    have fewer : Register.idle (top :: held) = Register.idle (r ::
        top.resize left.lowering.type.registerSize :: frame.held) + 1 :=
      once.symm.trans (Frame.free_idle found)
    have kept := rights spared
    rw [if_neg (Bool.eq_false_iff.mp composite), if_pos leaf, fewer, Nat.add_sub_cancel] at kept
    rw [Register.idle_of_used ⟨_, List.mem_cons_self, rfl⟩]
    exact kept
  case spilled =>
    intro notLeaf parked
    have composite : right.isLeaf = false := right.lowering_isLeaf.symm.trans notLeaf
    refine .inl ⟨pooled, fun spared => ?_⟩
    have same : (if left.isLeaf then Register.idle (top :: held) - 1 else
        Register.idle (top :: held)) = Register.idle (top :: held) := by
      rcases parked with unleafed | ⟨error, none⟩
      · exact if_neg (Bool.eq_false_iff.mp (left.lowering_isLeaf.symm.trans unleafed))
      · rw [show Register.idle (top :: held) = 0 from
          once.symm.trans (Frame.exhausted_idle supported none)]
        split <;> rfl
    have kept := rights spared
    rw [if_neg (Bool.eq_false_iff.mp composite), same] at kept
    exact twice ▸ kept

theorem arithmetic_figures (arithmetic : op = .add ∨ op = .sub ∨ op = .mul ∨ op = .div)
    (lefts : left.Mirrors around.scope around.precision first)
    (rights : right.Mirrors around.scope around.precision second)
    (leftFigures : left.Figures around env first) (rightFigures : right.Figures around env second)
    (leftSplits : left.Splits env around.ground around.scope (around.meaning first))
    (rightSplits : right.Splits env around.ground around.scope (around.meaning second)) :
    (binary pos op left right (.prim around.precision)).Figures around env
      (.apply op first second) := by
  refine Mirrors.figures_of (.binary arithmetic lefts rights) fun {frame top held} visible ord
    innermost endures => ?_
  obtain ⟨leftType, rightType⟩ := lefts.operands rights
  obtain ⟨mn, known, defined, narrows⟩ :=
    Primitive.arithmetic_operation around.isFloat arithmetic
  obtain ⟨pooled, survives⟩ : top.family ∈ Register.poolFamilies true ∧
      (around.spared → (binary pos op left right (.prim around.precision)).survives
        (Register.idle (top :: held)) = true) := by
    rcases endures with endured | ⟨leaf, _⟩
    · exact endured
    · cases leaf
  have chosen : Operation.ofTypes left.lowering.type op right.lowering.type =
      .ok ⟨op, .floatArith, mn, none, true, none⟩ := by
    rw [leftType, rightType, defined]
  have width : left.lowering.type.registerSize = right.lowering.type.registerSize := by
    rw [leftType, rightType]
  have operates := leftType ▸ float_operates known narrows
  have size : (Ty.prim around.precision).registerSize = left.lowering.type.registerSize := by
    rw [leftType]
  rw [lowering_binary, around.meaning_apply]
  show Answers (lowerBinary pos op left.lowering right.lowering fun _ => fourLeaves left right) env
    frame _ _ ⟨_, (Ty.prim around.precision).registerSize⟩ _
  exact lowerBinary_delivers ord visible innermost (Register.mem_poolFamilies_isFloat pooled)
    chosen leftType ⟨leftType ▸ around.isFloat, around.isFloat⟩ size
    ⟨leftFigures, rightFigures, rfl, width, pooled, rfl, Operation.ofTypes_lawful chosen,
      (fun comparing => nomatch comparing), operates⟩
    (fun four => fourLeaves_computes leftSplits rightSplits) (by simp only [burden, Nat.le_refl])
    (arithmetic_admits innermost pooled leftFigures.supported survives)

end

/-- The code of every float expression computes the term that mirrors it. -/
theorem Mirrors.figures (env : Env) (mirrors : expr.Mirrors around.scope around.precision term)
    (stored : ∀ v ∈ term.literals, v ∈ around.values) :
    expr.Figures around env term ∧ expr.Splits env around.ground around.scope
      (around.meaning term) := by
  induction mirrors with
  | ident found typed => exact ⟨ident_figures found typed, fun same => nomatch same⟩
  | float => exact ⟨float_figures (stored _ List.mem_cons_self), fun same => nomatch same⟩
  | negate inner computed ih =>
    exact ⟨negate_figures inner computed (ih stored).1, fun same => nomatch same⟩
  | binary arithmetic lefts rights leftFigures rightFigures =>
    obtain ⟨first, firstSplits⟩ := leftFigures fun v mem =>
      stored v (List.mem_append_left _ mem)
    obtain ⟨second, secondSplits⟩ := rightFigures fun v mem =>
      stored v (List.mem_append_right _ mem)
    exact ⟨arithmetic_figures arithmetic lefts rights first second firstSplits secondSplits,
      arithmetic_splits arithmetic lefts rights first second⟩

end Expr

/-- Lowering a float expression into a float register of its size succeeds, however many registers
are held and whatever features are enabled. When no negated leaf stands on the right side of an
operator for which no register is left, running the code leaves there the value of the term that
mirrors the expression, whatever the operations on floats are. -/
theorem float_expression_evaluated {env : Env} {frame : Frame} {expr : Expr} {term : Term}
    {precision : Primitive} {register : Register} (isFloat : precision.isFloat = true)
    (mirrors : expr.Mirrors frame.scope precision term)
    (held : ∀ other ∈ frame.held, ∃ isFloat, other.family ∈ Register.poolFamilies isFloat)
    (pooled : register.family ∈ Register.poolFamilies true) (size : register.size = precision.bytes) :
    ∃ code next, Yields (expr.lowering.answer (.register register)) env frame (.value code register)
        next ∧
      (expr.survives (Register.idle (register :: frame.held)) = true →
        ∀ (world : World) (machine : Machine) (literal : Double → BitVec 64), world.IsNarrow →
          machine.Shelters frame.scope → machine.Stores world precision literal term.literals →
          expr.burden env ≤ machine.room →
          ∃ after, machine.run world code = some after ∧
            after.view register = term.value (machine.reading world frame.scope precision literal)) := by
  have ordinary : frame.Ordinary := by
    intro other member
    obtain ⟨_, pooled⟩ := held other member
    exact Frame.pool_ordinary pooled
  have lowered : ∀ (spared : Prop) (world : World) (literal : Double → BitVec 64)
      (narrow : world.IsNarrow),
      (spared → expr.survives (Register.idle (register :: frame.held)) = true) →
      ∃ code next, Yields (expr.lowering.answer (.register register)) env frame
          (.value code register) next ∧
        let around : Surroundings :=
          ⟨spared, world, frame.scope, precision, literal, term.literals, isFloat, narrow⟩
        Leaves around.ground (expr.burden env) (around.meaning term) code register := by
    intro spared world literal narrow survives
    let around : Surroundings :=
      ⟨spared, world, frame.scope, precision, literal, term.literals, isFloat, narrow⟩
    have figures : expr.Figures around env term :=
      (Expr.Mirrors.figures env mirrors fun _ member => member).1
    have working : register.Working true := by
      refine ⟨List.mem_cons_of_mem _ pooled, ?_⟩
      rw [size]
      exact around.inPool
    obtain ⟨fragment, next, run, delivers⟩ := figures.delivers (frame.push register) rfl
      (ordinary.push working.ordinary) rfl (.inl ⟨pooled, survives⟩)
    rw [Expr.lowering_type, mirrors.type_eq, Ty.registerSize_prim, ← size] at delivers
    obtain ⟨code, settled, _, leaves⟩ := delivers.settles working
    exact ⟨code, next.pop, Lowering.yields_prepare.mpr
      ⟨working.valid, fragment, next, run, settled.symm, rfl⟩, leaves⟩
  obtain ⟨code, next, run, _⟩ := lowered False .clearing (fun _ => 0) (fun _ _ _ _ => rfl) nofun
  refine ⟨code, next, run, fun survives world machine literal narrow shelters stores room => ?_⟩
  obtain ⟨other, _, again, leaves⟩ := lowered True world literal narrow fun _ => survives
  obtain ⟨same, _⟩ := run.unique again
  cases same
  exact leaves machine _ ⟨trivial, shelters, stores⟩ room rfl

def Lower.Frame.doubles : Frame where
  scope := [("x", ⟨8, 8, 1, .prim .f64⟩), ("y", ⟨16, 8, 1, .prim .f64⟩)]

/-- A world that adds and subtracts doubles like words. -/
def World.summing : World where
  label := fun _ => 16384
  flags := fun _ _ _ => default
  float := fun mnemonic left right =>
    match mnemonic with
    | .addsd => left + right
    | .subsd => left - right
    | _ => 0
  call := fun _ machine => machine

/-- A machine with one in every byte of its memory. -/
def Machine.filled : Machine := { Machine.sample 0 with memory := fun _ => 1 }

/-- The sum of `x` and the negated `y`, with that many zeros in front. -/
def Expr.towering : Nat → Expr
  | 0 => .binary {} .add (.ident {} "x" (.prim .f64))
    (.unary {} .negate (.ident {} "y" (.prim .f64))) (.prim .f64)
  | count + 1 => .binary {} .add (.float {} ⟨0⟩ (.prim .f64)) (towering count) (.prim .f64)

def Term.towering : Nat → Term
  | 0 => .apply .add (.ident "x") (.apply .sub .zero (.ident "y"))
  | count + 1 => .apply .add (.literal ⟨0⟩) (towering count)

theorem towering_mirrors (count : Nat) :
    (Expr.towering count).Mirrors Frame.doubles.scope .f64 (Term.towering count) := by
  induction count with
  | zero => exact .binary (.inl rfl) (.ident rfl rfl) (.negate (.ident rfl rfl) nofun)
  | succ count ih => exact .binary (.inl rfl) .float ih

theorem summing_isNarrow : World.summing.IsNarrow := by
  intro mn single left right
  cases mn <;> first | rfl | cases single

theorem filled_shelters : Machine.filled.Shelters Frame.doubles.scope := by
  intro name slot found scalar byte covered below
  have low : byte.toNat < 4096 := below.2
  simp only [Frame.doubles, List.lookup_cons, List.lookup_nil] at found
  split at found
  · cases found
    have near : (byte - 8184).toNat < 8 := covered
    bv_omega
  · split at found <;> cases found
    have near : (byte - 8176).toNat < 8 := covered
    bv_omega

def Machine.filling : Double → BitVec 64 := fun _ => 0x0101010101010101

theorem filled_stores (values : List Double) :
    Machine.filled.Stores .summing .f64 Machine.filling values where
  holds := by
    intro v _
    show Machine.filled.memory.load 16384 8 = 0x0101010101010101
    decide +kernel
  apart := by
    intro v _ byte covered below
    have low : byte.toNat < 4096 := below.2
    have near : (byte - 16384).toNat < 8 := covered
    bv_omega

theorem towering_sum_evaluated :
    ∃ code next, Yields ((Expr.towering 5).lowering.answer (.register ⟨.float 0, 8⟩)) (.pairing 16)
        .doubles (.value code ⟨.float 0, 8⟩) next ∧
      ∃ after, Machine.filled.run .summing code = some after ∧
        after.view ⟨.float 0, 8⟩ = 0x0505050505050505 := by
  have pooled : (⟨.float 0, 8⟩ : Register).family ∈ Register.poolFamilies true := by decide
  have total : (Term.towering 5).value (Machine.filled.reading .summing Frame.doubles.scope .f64
      Machine.filling) = 0x0505050505050505 := by decide +kernel
  obtain ⟨code, next, lowered, runs⟩ := float_expression_evaluated rfl (towering_mirrors 5) nofun
    pooled rfl
  rw [← total]
  exact ⟨code, next, lowered, runs (by decide) .summing .filled _ summing_isNarrow filled_shelters
    (filled_stores _) (by decide +kernel)⟩

/-- What the code of a fragment leaves in a register, from a filled memory. -/
def Lowered.sums? (fragment : Lowered) (register : Register) : Option (BitVec 64) :=
  (Machine.filled.run .summing fragment.code).map fun machine => machine.view register

/-- When all registers are held, the right operand goes into the scratch register, which negation
clears: what is added to `x` is zero. -/
theorem towering_negation_lost :
    (Term.towering 6).value (Machine.filled.reading .summing Frame.doubles.scope .f64
        Machine.filling) = 0x0606060606060606 ∧
      ∃ fragment next, Yields ((Expr.towering 6).lowering.answer (.register ⟨.float 0, 8⟩))
          (.pairing 16) .doubles fragment next ∧
        fragment.sums? ⟨.float 0, 8⟩ = some 0x0707070707070707 := by
  refine ⟨by decide +kernel, ?_⟩
  obtain ⟨fragment, next, lowered, checked⟩ := Yields.of_check
    ((Expr.towering 6).lowering.answer (.register ⟨.float 0, 8⟩)) (.pairing 16) .doubles
    (fun fragment => fragment.sums? ⟨.float 0, 8⟩ == some 0x0707070707070707) (by decide +kernel)
  exact ⟨fragment, next, lowered, beq_iff_eq.mp checked⟩

end Nasm64
