import Nasm64.Proofs.Value.Outcome

/-! Constants as right operands of operators, compared with variables that hold them. -/
namespace Nasm64

open Lower

/-- A constant of a type, as it is written into an instruction. -/
def Ty.folded (ty : Ty) (value : Int64) : Int64 := Word.fold value ty.registerSize ty.isSigned

theorem Fragment.operand?_prepend? {frag converted : Lowered}
    (prepended : frag.prepend? before = some converted) :
    converted.operand? .reg = frag.operand? .reg := by
  unfold Fragment.prepend? at prepended
  split at prepended
  · cases prepended
    rfl
  · split at prepended <;> cases prepended <;> rfl

namespace Conversion

/-- A conversion between integers folds a constant by the narrower of the types. -/
theorem apply_offers {src dst : Primitive} {origin : Source} {dest : Register} {opnd : Operand}
    (offered : (apply (.prim src) (.prim dst) (integerRule src dst) origin dest).operand? .reg =
      some opnd) :
    opnd.immediate? = origin.operand.immediate?.map (if dst.bytes ≤
      src.bytes then (Ty.prim dst).folded else (Ty.prim src).folded) := by
  have folds : ∀ prim : Primitive, (Ty.prim prim).folded =
      fun v => Word.fold v prim.bytes prim.isSigned := by
    intro prim
    funext v
    rw [Ty.folded, Ty.registerSize_prim]
    rfl
  by_cases narrower : dst.bytes ≤ src.bytes
  · rw [apply_reviews (integerRule_reviews narrower)] at offered
    rw [if_pos narrower, folds]
    cases origin <;> cases offered <;> rfl
  · rw [apply_extends (by omega)] at offered
    rw [if_neg narrower, folds]
    cases origin <;> cases offered <;> rfl

theorem source_offers (found : Lower.conversionSource? size frag = some origin) : ∃ opnd,
    frag.operand? .reg = some opnd ∧ opnd.immediate? = origin.operand.immediate? := by
  unfold Lower.conversionSource? at found
  split at found <;> cases found <;> exact ⟨_, rfl, rfl⟩

end Conversion

namespace Expr

/-- Integer literals, and casts and operators in front of them. -/
inductive IsConstant : Expr → Prop
  | number {position : Position} {value : Int64} {ty : Ty} (integer : ty.isInteger = true) :
    IsConstant (.number position value ty)
  | negate {position : Position} {operand : Expr} (inner : IsConstant operand) :
    IsConstant (.unary position .negate operand)
  | complement {position : Position} {operand : Expr} (inner : IsConstant operand) :
    IsConstant (.unary position .complement operand)
  | cast {position : Position} {operand : Expr} {ty : Ty} (inner : IsConstant operand)
    (integer : ty.isInteger = true) : IsConstant (.cast position operand ty)

/-- The immediate that a constant is folded to. What stands in front of a cast is computed instead. A
cast to a wider type folds by the type that it starts from. -/
def immediate? : Expr → Option Int64
  | number _ value ty => some (ty.folded value)
  | unary _ .negate operand =>
    match operand.constant?.map Constant.negate with
    | some (.word value) => some (operand.type.folded value)
    | _ => none
  | unary _ .complement operand =>
    operand.integerLiteral?.map fun value => operand.type.folded (~~~value)
  | cast _ operand ty =>
    operand.immediate?.map
      (if operand.type.scalar? = ty.scalar? then id
      else if ty.bytes ≤ operand.type.bytes then ty.folded else operand.type.folded)
  | _ => none

namespace IsConstant

variable {expr : Expr}

section

variable (const : expr.IsConstant)

include const

theorem type_integer : expr.type.isInteger = true := by
  induction const with
  | number integer | cast _ integer => exact integer
  | negate _ ih | complement _ ih => exact ih

theorem integral (scope : List (String × Variable)) : expr.Integral scope := by
  induction const with
  | number integer => exact .number integer
  | negate inner ih => exact .negate ih inner.type_integer
  | complement inner ih => exact .complement ih inner.type_integer
  | cast inner integer ih => exact .cast ih (.inl inner.type_integer) integer

theorem isLeaf : expr.isLeaf = true := by
  induction const with
  | number => rfl
  | negate _ ih | complement _ ih | cast _ _ ih => exact ih

theorem burden_eq_zero (env : Env) : expr.burden env = 0 := by
  induction const with
  | number => simp only [burden]
  | negate _ ih | complement _ ih | cast _ _ ih => simpa only [burden] using ih

end

end IsConstant

section

variable {env : Env} {frame next : Frame} {pos : Position} {inside : Expr} {ty : Ty}
  {frag : Lowered} {opnd : Operand}

theorem lowerNumber_offers (integer : ty.isInteger = true)
    (run : Yields (lowerNumber pos v ty) env frame frag next)
    (offered : frag.operand? .reg = some opnd) : opnd.immediate? = some (ty.folded v) := by
  rcases yields_lowerNumber.mp run with ⟨float, _⟩ | ⟨_, _, rfl, _⟩
  · rw [Ty.isFloat_of_isIntegral (Ty.isIntegral_of_isInteger integer)] at float
    cases float
  · cases offered
    rfl

theorem lowerUnaryValue_offers (run : Yields (lowerUnaryValue pos op node ty) env frame frag next)
    (offered : frag.operand? .reg = some opnd) : opnd.immediate? = none :=
    by
  obtain ⟨_, _, _, _, _, _, rfl, _⟩ := yields_lowerUnaryValue.mp run
  cases offered
  rfl

theorem negate_offers (integer : inside.type.isInteger = true)
    (run : Yields (unary pos .negate inside).lowering.value env frame frag next)
    (offered : frag.operand? .reg = some opnd) :
    opnd.immediate? = (unary pos .negate inside).immediate? := by
  have general := Ty.isFloat_of_isIntegral (Ty.isIntegral_of_isInteger integer)
  obtain ⟨_, ⟨folded, known, number⟩ | ⟨known, computed⟩⟩ := yields_lowerNegate.mp run
  · rw [lowering_type, general] at number
    obtain ⟨float, _⟩ | ⟨_, v, rfl, number⟩ := number
    · cases float
    · rw [lowerNumber_offers integer number offered, immediate?]
      generalize inside.constant?.map Constant.negate = const at known ⊢
      rcases const with _ | word | float
      · cases known
      · cases known
        rfl
      · simp [foldedNegation, general] at known
  · rw [lowerUnaryValue_offers computed offered, immediate?]
    generalize inside.constant?.map Constant.negate = const at known ⊢
    rcases const with _ | word | float
    · rfl
    · cases known
    · rfl

theorem complement_offers (integer : inside.type.isInteger = true)
    (run : Yields (unary pos .complement inside).lowering.value env frame frag next)
    (offered : frag.operand? .reg = some opnd) :
    opnd.immediate? = (unary pos .complement inside).immediate? := by
  obtain ⟨_, ⟨v, known, number⟩ | ⟨known, computed⟩⟩ := yields_lowerComplement.mp run
  · rw [lowering_type] at number
    rw [lowerNumber_offers integer number offered, immediate?, known]
    rfl
  · rw [lowerUnaryValue_offers computed offered, immediate?, known]
    rfl

theorem cast_offers (origin : inside.type.isInteger = true) (integer : ty.isInteger = true)
    (offers : inside.Offers env inside.immediate?)
    (run : Yields (cast pos inside ty).lowering.value env frame frag next)
    (offered : frag.operand? .reg = some opnd) :
    opnd.immediate? = (cast pos inside ty).immediate? := by
  obtain ⟨_, same, unchanged⟩ | ⟨differs, _, _, rule, between, _, _, _, _, _, _, src, _, read, _,
    sourced, converted, _⟩ := yields_lowerCast.mp run
  · rw [lowering_type] at same
    rw [offers unchanged offered, immediate?, if_pos same, Option.map_id]
    rfl
  · obtain ⟨narrow, known⟩ := Ty.prim_of_isInteger origin
    obtain ⟨dst, rfl⟩ := Ty.prim_of_isInteger integer
    rw [known] at origin
    rw [lowering_type, known] at differs between converted
    have distinct : (Ty.prim narrow).scalar? ≠ (Ty.prim dst).scalar? :=
      fun same => differs ⟨rfl, same⟩
    rw [Conversion.between_integers (.inl origin) integer fun same => distinct (by rw [same])]
      at between
    cases between
    rw [Fragment.operand?_prepend? converted] at offered
    obtain ⟨lit, written, same⟩ := Conversion.source_offers sourced
    rw [Conversion.apply_offers offered, ← same, offers read written, immediate?, known,
      if_neg distinct]
    simp only [Ty.bytes, Ty.registerSize_prim, Int.toNat_natCast]

end

/-- Constants are lowered to the immediates that they are folded to, and computed otherwise. -/
theorem IsConstant.offers {expr : Expr} (const : expr.IsConstant) (env : Env) :
    expr.Offers env expr.immediate? := by
  induction const with
  | number integer => exact lowerNumber_offers integer
  | negate inner => exact negate_offers inner.type_integer
  | complement inner => exact complement_offers inner.type_integer
  | cast inner integer ih => exact cast_offers inner.type_integer integer ih

theorem ident_offers {pos : Position} {name : String} {ty : Ty} (env : Env) :
    (ident pos name ty).Offers env none := by
  intro start frag after opnd run offered
  obtain ⟨slot, _, ⟨_, dst, _, rfl⟩ | ⟨_, _, rfl, _⟩⟩ := yields_lowerVariable.mp run
  all_goals
    cases offered
    rfl

end Expr

/-- Dividing by a constant is dividing by its value, if the constant is extended by the sign of the
left type. Constants of 32 and 64 bits need not be. -/
theorem Ty.outcome?_of_canonical {ty : Ty} (integral : ty.isIntegral = true)
    (stands : ∀ v ∈ imm, Word.low ty.bytes v.toBitVec = right)
    (canonical : op = .div ∨ op = .rem → ty.registerSize < 4 → ∀ v ∈ imm, ty.folded v = v) :
    ty.outcome? op imm left right = ty.outcome? op none left right := by
  cases imm with
  | none => rfl
  | some v =>
    unfold outcome?
    split
    · rename_i divides
      obtain rfl := stands v rfl
      dsimp only [Word.divisor]
      by_cases narrow : ty.registerSize < 4
      · have extended : Word.extend ty.isSigned ty.bytes v.toBitVec = v.toBitVec := by
          rw [← Word.toBitVec_fold (Ty.bytes_cases integral), Ty.bytes_cast integral]
          exact congrArg Int64.toBitVec (canonical divides narrow v rfl)
        have same : Word.extend ty.isSigned ty.registerSize.toNat (Word.low ty.bytes v.toBitVec) =
            v.toBitVec := Word.extend_low.trans extended
        rw [same]
      · have wide : ty.registerSize = 4 ∨ ty.registerSize = 8 := by
          have := Ty.registerSize_cases integral
          omega
        have same : (Word.low ty.bytes v.toBitVec).setWidth (8 * ty.registerSize.toNat) =
            v.toBitVec.setWidth _ := Word.setWidth_low
        rw [Operator.divide?_wide wide, Operator.divide?_wide wide, Word.setWidth_extend, same]
    · rfl

/-- An operator with a constant on its right is lowered, and so is the operator with a variable of the
type of the constant in its place. Where the variable holds the value of the constant, both codes come
to the same, faults included. Divisions at 8 and 16 bits are an exception: they divide by the immediate
that the constant is folded to, which has to be extended by the sign of the left type for that. -/
theorem constant_operand_like_variable {env : Env} {frame : Frame} {position place : Position}
    {op : Operator} {left right : Expr} {operation : Operation} {name : String} {slot : Variable}
    {register : Register} (first : left.Integral frame.scope) (constant : right.IsConstant)
    (found : frame.scope.lookup name = some slot) (alike : slot.type = right.type)
    (defined : Operation.ofTypes left.type op right.type = .ok operation)
    (held : ∀ other ∈ frame.held, ∃ isFloat, other.family ∈ Register.poolFamilies isFloat)
    (pooled : register.family ∈ Register.poolFamilies false)
    (size : register.size = (operation.resultType left.type).registerSize) :
    ∃ byConstant byVariable afterConstant afterVariable,
      Yields ((Expr.binary position op left right (operation.resultType left.type)).lowering.answer
        (.register register)) env frame (.value byConstant register) afterConstant ∧
      Yields ((Expr.binary position op left (.ident place name slot.type)
        (operation.resultType left.type)).lowering.answer (.register register)) env frame
        (.value byVariable register) afterVariable ∧
      ∀ (world : World) (machine : Machine) (first second : BitVec 64), machine.Hosts frame.scope →
        left.burden env + 16 ≤ machine.room →
        left.value? (machine.local? frame.scope) = some first →
        right.value? (machine.local? frame.scope) = some second →
        machine.local? frame.scope name = some second →
        machine.outcome? world byConstant register =
          left.type.outcome? op right.immediate? first second ∧
        machine.outcome? world byVariable register = left.type.outcome? op none first second ∧
        ((op = .div ∨ op = .rem → left.type.registerSize < 4 →
            ∀ value ∈ right.immediate?, left.type.folded value = value) →
          machine.outcome? world byConstant register = machine.outcome? world byVariable register) := by
  have ordinary : frame.Ordinary := by
    intro other member
    obtain ⟨_, pooled⟩ := held other member
    exact Frame.pool_ordinary pooled
  have scalar : slot.type.isIntegral = true := by
    rw [alike]
    exact Ty.isIntegral_of_isInteger constant.type_integer
  obtain ⟨byConstant, afterConstant, lowered, constants⟩ := Expr.leafOperator_outcome first
    (constant.integral frame.scope) constant.isLeaf (constant.offers env) defined ordinary pooled size
  obtain ⟨byVariable, afterVariable, loweredVariable, variables_⟩ := Expr.leafOperator_outcome first
    (.ident found scalar) rfl (Expr.ident_offers env) (alike ▸ defined) ordinary pooled size
  refine ⟨byConstant, byVariable, afterConstant, afterVariable, lowered, loweredVariable, ?_⟩
  intro world machine leftValue rightValue hosts room lefts rights holds
  simp only [Expr.burden, constant.burden_eq_zero env, Nat.add_zero] at constants variables_
  obtain ⟨outcome, stands⟩ := constants world machine leftValue rightValue hosts room lefts rights
  obtain ⟨outcomeVariable, _⟩ := variables_ world machine leftValue rightValue hosts room lefts holds
  refine ⟨outcome, outcomeVariable, fun canonical => ?_⟩
  rw [outcome, outcomeVariable]
  exact Ty.outcome?_of_canonical first.type_integral stands canonical

def Lower.Frame.halves : Frame where
  scope := [("x", ⟨2, 2, 1, .prim .u16⟩), ("y", ⟨4, 2, 1, .prim .u16⟩)]

/-- A machine whose memory is filled with ones. -/
def Machine.saturated : Machine := { Machine.sample 7 with memory := fun _ => 255 }

/-- The quotient of `x` and a divisor, lowered into `rax`. -/
def Expr.dividing (divisor : Expr) : Lower Lowered :=
  (Expr.binary {} .div (.ident {} "x" (.prim .u16)) divisor (.prim .u16)).lowering.answer
    (.register ⟨.rax, 2⟩)

theorem halves_slot (found : Frame.halves.scope.lookup name = some slot) :
    slot = ⟨2, 2, 1, .prim .u16⟩ ∨ slot = ⟨4, 2, 1, .prim .u16⟩ := by
  simp only [Frame.halves, List.lookup_cons, List.lookup_nil] at found
  split at found
  · exact .inl (Option.some.inj found).symm
  · split at found
    · exact .inr (Option.some.inj found).symm
    · cases found

theorem saturated_hosts : Machine.saturated.Hosts Frame.halves.scope where
  shelters := by
    intro name slot found scalar byte covered below
    have low : byte.toNat < 4096 := below.2
    rcases halves_slot found with rfl | rfl
    · have near : (byte - 8190).toNat < 2 := covered
      bv_omega
    · have near : (byte - 8188).toNat < 2 := covered
      bv_omega
  boolean := by
    intro name slot found isBool
    rcases halves_slot found with rfl | rfl <;> cases isBool

theorem constant_divisor_like_variable :
    ∃ byConstant byVariable afterConstant afterVariable,
      Yields (Expr.number {} 65535 (.prim .u16)).dividing (.pairing 16) .halves
        (.value byConstant ⟨.rax, 2⟩) afterConstant ∧
      Yields (Expr.ident {} "y" (.prim .u16)).dividing (.pairing 16) .halves
        (.value byVariable ⟨.rax, 2⟩) afterVariable ∧
      Machine.saturated.outcome? .clearing byConstant ⟨.rax, 2⟩ = some 1 ∧
      Machine.saturated.outcome? .clearing byConstant ⟨.rax, 2⟩ =
        Machine.saturated.outcome? .clearing byVariable ⟨.rax, 2⟩ := by
  have found : Frame.halves.scope.lookup "x" = some ⟨2, 2, 1, .prim .u16⟩ := rfl
  have beside : Frame.halves.scope.lookup "y" = some ⟨4, 2, 1, .prim .u16⟩ := rfl
  have first : (Expr.ident {} "x" (.prim .u16)).Integral Frame.halves.scope := .ident found rfl
  have constant : (Expr.number {} 65535 (.prim .u16)).IsConstant := .number rfl
  have divided : Operation.ofTypes (.prim .u16) .div (.prim .u16) =
      .ok ⟨.div, .div, .div, none, false, none⟩ := rfl
  have pooled : (⟨.rax, 2⟩ : Register).family ∈ Register.poolFamilies false := by decide
  obtain ⟨byConstant, byVariable, afterConstant, afterVariable, lowered, loweredVariable, runs⟩ :=
    @constant_operand_like_variable (.pairing 16) .halves {} {} .div _ _ _ "y" _ ⟨.rax, 2⟩ first
      constant beside rfl divided nofun pooled rfl
  obtain ⟨outcome, _, alike⟩ := runs .clearing .saturated 65535 65535 saturated_hosts
    (by decide +kernel) (by decide +kernel) (by decide +kernel) (by decide +kernel)
  refine ⟨byConstant, byVariable, afterConstant, afterVariable, lowered, loweredVariable,
    outcome.trans (by decide +kernel), alike fun _ _ value written => ?_⟩
  cases written
  decide +kernel

/-- Minus one, widened from a byte with a sign to 16 bits without one. -/
def Expr.widened : Expr := .cast {} (.number {} (-1) (.prim .i8)) (.prim .u16)

/-- A cast to a wider type folds by the type that it starts from. The immediate for 65535 is minus one
then, and dividing by it is not dividing by 65535. -/
theorem widened_divisor_differs :
    Expr.widened.value? (Machine.saturated.local? Frame.halves.scope) =
        Machine.saturated.local? Frame.halves.scope "y" ∧
      (∃ fragment next, Yields Expr.widened.dividing (.pairing 16) .halves fragment next ∧
        Machine.saturated.outcome? .clearing fragment.code ⟨.rax, 2⟩ = some 0) ∧
      ∃ fragment next, Yields (Expr.ident {} "y" (.prim .u16)).dividing (.pairing 16) .halves fragment
          next ∧
        Machine.saturated.outcome? .clearing fragment.code ⟨.rax, 2⟩ = some 1 := by
  obtain ⟨constant, constantNext, lowered, zero⟩ := Yields.of_check Expr.widened.dividing (.pairing 16)
    .halves (fun fragment => Machine.saturated.outcome? .clearing fragment.code ⟨.rax, 2⟩ == some 0)
    (by decide +kernel)
  obtain ⟨variable_, variableNext, loweredVariable, one⟩ := Yields.of_check
    (Expr.ident {} "y" (.prim .u16)).dividing (.pairing 16) .halves
    (fun fragment => Machine.saturated.outcome? .clearing fragment.code ⟨.rax, 2⟩ == some 1)
    (by decide +kernel)
  exact ⟨by decide +kernel, ⟨constant, constantNext, lowered, beq_iff_eq.mp zero⟩, variable_,
    variableNext, loweredVariable, beq_iff_eq.mp one⟩

end Nasm64
