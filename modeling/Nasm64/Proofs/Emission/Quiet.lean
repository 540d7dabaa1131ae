import Nasm64.Proofs.Lower.Binary
import Nasm64.Proofs.Emission.Bracket
import Nasm64.Proofs.Lower.Place
import Nasm64.Proofs.Lower.Prefixed

/-! The pieces of code that leave the machine stack alone, and the families that they write. -/
namespace Nasm64

def Mnemonic.isSetter : Mnemonic → Bool
  | sete | setne | setl | setle | setg | setge | setb | setbe | seta | setae => true
  | _ => false

namespace Operation

/-- The instructions of an operation are of the kind that its family is lowered for. -/
def isLawful (operation : Operation) : Bool :=
  match operation.family with
  | .unsignedMul => operation.mnemonic == .mul
  | .div | .rem => operation.mnemonic == .div || operation.mnemonic == .idiv
  | .compare | .floatCompare => operation.mnemonic.isTest && operation.condition.any Mnemonic.isSetter
  | _ => operation.mnemonic != .xchg

theorem integer?_lawful (isSigned : Bool) (op : Operator) :
    (integer? isSigned op).all isLawful = true := by
  cases isSigned <;> cases op <;> rfl

theorem float?_lawful (isDouble : Bool) (op : Operator) :
    (float? isDouble op).all isLawful = true := by
  cases isDouble <;> cases op <;> rfl

theorem bool?_lawful (op : Operator) : (bool? op).all isLawful = true := by
  cases op <;> rfl

theorem pointerOffset?_lawful (op : Operator) : (pointerOffset? op).all isLawful = true := by
  cases op <;> rfl

theorem pointers?_lawful (op : Operator) : (pointers? op).all isLawful = true := by
  cases op <;> rfl

theorem select?_lawful (left : Scalar) (op : Operator) (right : Scalar) :
    (select? left op right).all isLawful = true := by
  unfold select?
  split
  · split
    · exact integer?_lawful _ _
    · split
      · exact float?_lawful _ _
      · split
        · exact bool?_lawful _
        · rfl
  · split
    · exact pointerOffset?_lawful _
    · rfl
  · exact pointers?_lawful _
  · rfl

theorem ofTypes_lawful {left right : Ty} {op : Operator} {oper : Operation}
    (found : ofTypes left op right = .ok oper) : oper.isLawful = true := by
  simp only [ofTypes] at found
  split at found
  · rename_i selected chosen
    cases found
    split at chosen
    · rename_i leftScalar rightScalar _ _
      have lawful := select?_lawful leftScalar op rightScalar
      rw [chosen] at lawful
      simpa using lawful
    · cases chosen
  · cases found

end Operation

namespace Conversion

theorem standard_lawful : ∀ entry ∈ standard, entry.rule.mnemonic ≠ .xchg := by decide

theorem between_lawful (found : between src dst = .ok rule) : rule.mnemonic ≠ .xchg := by
  obtain ⟨_, _, _, _, listed⟩ := between_listed found
  exact standard_lawful _ listed

end Conversion

namespace Lower

def Quiet (families : List Family) (code : Code) : Prop :=
  ∀ line ∈ code, line.isQuiet = true ∧ ∀ family ∈ line.writes, family ∈ families

namespace Quiet

variable {families : List Family} {first second : Code}

@[simp] theorem nil : Quiet families [] := List.forall_mem_nil _

theorem append (before : Quiet families first) (after : Quiet families second) :
    Quiet families (first ++ second) := List.forall_mem_append.mpr ⟨before, after⟩

theorem cons (head : Quiet families [line]) (tail : Quiet families second) :
    Quiet families (line :: second) := head.append tail

theorem flatMap {α : Type} {items : List α} {emit : α → Code}
    (quiet : ∀ item ∈ items, Quiet families (emit item)) : Quiet families (items.flatMap emit) := by
  intro line mem
  obtain ⟨item, listed, emitted⟩ := List.mem_flatMap.mp mem
  exact quiet item listed line emitted

theorem mono (quiet : Quiet families first) (includes : ∀ fam ∈ families, fam ∈ wider) :
    Quiet wider first :=
  fun line mem => ⟨(quiet line mem).1, fun fam written =>
    includes fam ((quiet line mem).2 fam written)⟩

theorem bracketed (quiet : Quiet families first) (includes : ∀ fam ∈ families, changes fam) :
    Bracketed env depth area weight changes first := by
  induction first with
  | nil => exact .nil
  | cons line rest ih =>
    obtain ⟨silent, writes⟩ := quiet line (by simp)
    have head : Bracketed env depth area weight changes [line] :=
      .line silent fun fam mem => includes fam (writes fam mem)
    exact head.append (ih fun other mem => quiet other (by simp [mem]))

theorem binary (plain : mn ≠ .xchg) (ord : dst.family.isOrdinary = true)
    (mem : dst.family ∈ families) : Quiet families [.binary mn (.reg dst) src] := by
  intro line listed
  obtain rfl := List.mem_singleton.mp listed
  cases mn <;> simp_all [Line.isQuiet, Line.writes, Mnemonic.isTest]

theorem unary (computes : mn.isUnaryComputation = true) (ord : dst.family.isOrdinary = true)
    (members : ∀ fam ∈ (Line.unary mn (.reg dst)).writes, fam ∈ families) :
    Quiet families [.unary mn (.reg dst)] := by
  intro line listed
  obtain rfl := List.mem_singleton.mp listed
  exact ⟨by simp [Line.isQuiet, computes, ord], members⟩

theorem frameStore (moves : mn.isMove = true) (narrow : 0 ≤ size ∧ size ≤ 8) :
    Quiet families [.binary mn (.mem size (.frameSlot offset)) (.reg src)] := by
  intro line listed
  obtain rfl := List.mem_singleton.mp listed
  cases mn <;> simp_all [Line.isQuiet, Line.writes, Mnemonic.isMove, Address.frameSlot,
    Register.framePointer]

end Quiet

section

variable {dst src : Register} {families : List Family}

theorem floatMove_isMove (size : Int) : (Conversion.floatMove size).isMove = true := by
  unfold Conversion.floatMove
  split <;> rfl

theorem floatMove_ne_xchg (size : Int) : Conversion.floatMove size ≠ .xchg := by
  unfold Conversion.floatMove
  split <;> decide

theorem move_quiet (opnd : Operand) (ord : dst.family.isOrdinary = true) :
    Quiet [dst.family] (move dst opnd) := by
  unfold move
  split
  · exact .binary (floatMove_ne_xchg _) ord (by simp)
  · exact .binary (by decide) ord (by simp)

theorem moveRegister_quiet (ord : dst.family.isOrdinary = true) :
    Quiet [dst.family] (moveRegister dst src) := by
  unfold moveRegister
  split
  · exact .nil
  · split
    · exact .binary (floatMove_ne_xchg _) ord (by simp)
    · split
      · exact .binary (by decide) ord (by simp)
      · split
        · exact .binary (by decide) ord (by simp)
        · exact .binary (by decide) ord (by simp)

theorem scalar_narrow {ty : Ty} (scalar : ty.isScalar = true) :
    0 ≤ ty.registerSize ∧ ty.registerSize ≤ 8 := by
  cases ty with
  | prim primitive => cases primitive <;> decide
  | pointer dst => simp [Ty.registerSize, Ty.isPointer]
  | void | array | struct => cases scalar

theorem store_quiet (offset : Int64) (narrow : 0 ≤ size ∧ size ≤ 8) :
    Quiet families (store (.mem size (.frameSlot offset)) src) := by
  unfold store
  split
  · exact .frameStore (floatMove_isMove _) narrow
  · exact .frameStore rfl narrow

theorem zero_quiet (ord : dst.family.isOrdinary = true) : Quiet [dst.family] (zero dst) := by
  unfold zero
  split
  · exact .binary (by decide) ord (by simp)
  · exact .binary (by decide) ord (by simp)

theorem addressCopy_quiet (ord : dst.family.isOrdinary = true) (shaped : nested.shape = .inline) :
    Quiet [dst.family] (addressCopy dst nested) := by
  cases nested with
  | inline place => exact .binary (by decide) ord (by simp)
  | value code r => cases shaped
  | effect code => cases shaped

/-- The scratch registers, which any code may overwrite. -/
def scratchFamilies : List Family := [Register.scratch.family, Register.floatScratch.family]

theorem unaryCode_quiet (op : UnaryOperator) (ord : dst.family.isOrdinary = true) :
    Quiet (dst.family :: if (unaryCode op dst).2 then scratchFamilies else [])
      (unaryCode op dst).1 := by
  cases op with
  | not => exact .binary (by decide) ord (by simp)
  | complement => exact .unary rfl ord (by simp [Line.writes])
  | negate =>
    simp only [unaryCode]
    split
    · refine .cons (.binary (by decide) rfl (by simp [scratchFamilies]))
        (.cons (.binary ?_ rfl (by simp [scratchFamilies])) (.binary ?_ ord (by simp)))
      · split <;> decide
      · split <;> decide
    · exact .unary rfl ord (by simp [Line.writes])

theorem widenIndex_quiet (ty : Ty) (ord : dst.family.isOrdinary = true) :
    Quiet [dst.family] (widenIndex dst ty) := by
  simp only [widenIndex]
  split
  · exact .nil
  · split
    · exact .binary (by decide) ord (by simp)
    · split
      · exact .binary (by decide) ord (by simp)
      · split
        · exact .binary (by decide) ord (by simp)
        · exact .binary (by decide) ord (by simp)

theorem indexCode_quiet (ty : Ty) (elementSize : Int64) (ord : dst.family.isOrdinary = true) :
    Quiet [dst.family] (indexCode dst ty elementSize) := by
  refine (widenIndex_quiet ty ord).append ?_
  split
  · exact .nil
  · exact .binary (by decide) ord (by simp)

theorem applyDirect_quiet (opnd : Operand) (plain : mn ≠ .xchg)
    (ord : dst.family.isOrdinary = true) :
    Quiet [dst.family, Register.scratch.family] (applyDirect mn dst opnd) := by
  simp only [applyDirect, encoded]
  split
  · exact .binary plain ord (by simp)
  · exact .cons (.binary (by decide) rfl (by simp)) (.binary plain ord (by simp))

theorem applyDirect_test_quiet (opnd : Operand) (tests : mn.isTest = true)
    (ord : dst.family.isOrdinary = true) :
    Quiet [Register.scratch.family] (applyDirect mn dst opnd) := by
  have silent : ∀ src, Quiet [Register.scratch.family]
      [.binary mn (.reg dst) src] := by
    intro src line listed
    obtain rfl := List.mem_singleton.mp listed
    cases mn <;> simp_all [Line.isQuiet, Line.writes, Mnemonic.isTest]
  simp only [applyDirect, encoded]
  split
  · exact silent _
  · exact .cons (.binary (by decide) rfl (by simp)) (silent _)

theorem applyMul_quiet (opnd : Operand) (ord : dst.family.isOrdinary = true) :
    Quiet [dst.family, Register.scratch.family] (applyMul dst opnd) := by
  simp only [applyMul]
  split
  · exact applyDirect_quiet opnd (by decide) ord
  · split
    · exact .cons (.binary (by decide) ord (by simp)) (.binary (by decide) ord (by simp))
    · exact .cons (.binary (by decide) ord (by simp))
        (.cons (.binary (by decide) rfl (by simp)) (.binary (by decide) ord (by simp)))

theorem accumulatorStaging_quiet (op : Operation) (work : Register) (opnd : Operand) :
    Quiet [Register.scratch.family] [accumulatorStaging op work opnd] := by
  simp only [accumulatorStaging, widening]
  split
  · refine .binary ?_ rfl (by simp)
    split <;> decide
  · exact .binary (by decide) rfl (by simp)

theorem accumulatorBody_quiet
    (divides : op.mnemonic = .mul ∨ op.mnemonic = .div ∨ op.mnemonic = .idiv)
    (ord : dst.family.isOrdinary = true) :
    Quiet [dst.family, .rax, .rdx] (accumulatorBody op dst) := by
  have loading : Quiet [dst.family, .rax, .rdx] (accumulatorLoading op dst) := by
    simp only [accumulatorLoading, widening]
    split
    · refine .binary ?_ rfl (by simp [Register.accumulator, Register.resize])
      split <;> decide
    · split
      · exact .binary (by decide) rfl (by simp [Register.accumulator, Register.resize])
      · exact .nil
  have extension : Quiet [dst.family, .rax, .rdx] (accumulatorExtension op dst) := by
    simp only [accumulatorExtension]
    split
    · exact .nil
    · split
      · intro line listed
        obtain rfl := List.mem_singleton.mp listed
        split <;> simp [Line.isQuiet, Line.writes]
      · exact .binary (by decide) rfl (by simp)
  have computing : Quiet [dst.family, .rax, .rdx] [.unary op.mnemonic
      (.reg (Register.scratch.resize (max dst.size 4)))] := by
    rcases divides with same | same | same
    all_goals
      rw [same]
      exact .unary rfl rfl (by simp [Line.writes])
  have storing : Quiet [dst.family, .rax, .rdx] (accumulatorStoring op dst) := by
    simp only [accumulatorStoring]
    split
    · exact .nil
    · exact .binary (by decide) ord (by simp)
  exact ((loading.append extension).append computing).append storing

/-- What a conversion gives in terms of its destination: an operand, quiet code for it that may use
some scratch registers, or the register that the value was in. -/
inductive Converted (origin : Conversion.Source) (destination : Register) (scratch : List Family) :
    Lowered → Prop
  | inline {operand : Operand} : Converted origin destination scratch (.inline operand)
  | computed {code : Code} {register : Register} (same : register.family = destination.family)
    (quiet : Quiet (destination.family :: scratch) code) :
    Converted origin destination scratch (.value code register)
  | kept {start register : Register} (given : origin = .register start)
    (same : register.family = start.family) :
    Converted origin destination scratch (.value [] register)

def conversionScratch (kind : Conversion.Kind) : List Family :=
  if usesFloatScratch kind then scratchFamilies else [Register.scratch.family]

section

variable {src dst : Scalar} {rule : Conversion.Rule} {origin : Conversion.Source}
  {dest : Register}

theorem review_converted : Converted origin dest scratch (Conversion.review dst origin) :=
    by
  cases origin with
  | register start => exact .kept rfl rfl
  | memory size addr => exact .inline
  | constant v => exact .inline

theorem extend_converted (plain : rule.mnemonic ≠ .xchg) (ord : dest.family.isOrdinary = true) :
    Converted origin dest [Register.scratch.family]
      (Conversion.extend src dst rule origin dest) := by
  have widens : ∀ opnd : Operand, Quiet [dest.family, Register.scratch.family]
      (if rule.kind == .stagedExtend then
        [.mov (.reg (Register.scratch.resize 4)) opnd,
          if src.isSigned then
            .binary .movsxd (.reg (dest.resize 8)) (.reg (Register.scratch.resize 4))
          else .mov (.reg (dest.resize 4)) (.reg (Register.scratch.resize 4))]
      else if rule.mnemonic == .mov then [.mov (.reg (dest.resize 4)) opnd]
      else [.binary rule.mnemonic (.reg (dest.resize dst.bytes)) opnd]) := by
    intro opnd
    split
    · refine .cons (.binary (by decide) rfl (by simp)) ?_
      split
      · exact .binary (by decide) ord (by simp)
      · exact .binary (by decide) ord (by simp)
    · split
      · exact .binary (by decide) ord (by simp)
      · exact .binary plain ord (by simp)
  cases origin with
  | register start => exact .computed rfl (widens _)
  | memory size addr => exact .computed rfl (widens _)
  | constant v => exact .inline

theorem settleFloat_quiet (ord : dest.family.isOrdinary = true) :
    Quiet (dest.family :: scratchFamilies) [Conversion.settleFloat dst dest] :=
  .binary (floatMove_ne_xchg _) ord (by simp)

section

variable (plain : rule.mnemonic ≠ .xchg) (ord : dest.family.isOrdinary = true)

include plain ord

theorem integerToFloat_converted :
    Converted origin dest scratchFamilies (Conversion.integerToFloat src dst rule origin dest) := by
  have stages : ∀ (mn : Mnemonic) (size : Int) (opnd : Operand), mn ≠ .xchg →
      Quiet (dest.family :: scratchFamilies)
        [.binary mn (.reg (Register.scratch.resize size)) opnd] :=
    fun _ _ _ moves => .binary moves rfl (by simp [scratchFamilies])
  have converts : ∀ opnd, Quiet (dest.family :: scratchFamilies)
      [.binary rule.mnemonic (.reg .floatScratch) opnd,
        Conversion.settleFloat dst dest] :=
    fun _ => .cons (.binary plain rfl (by simp [scratchFamilies])) (settleFloat_quiet ord)
  have widen : (if src.isSigned then Mnemonic.movsx else .movzx) ≠ .xchg := by
    split <;> decide
  refine .computed rfl (Quiet.append ?_ (converts _))
  split
  · exact stages _ 8 _ (by decide)
  · split
    · exact stages _ 4 _ widen
    · split
      · exact stages _ 4 _ (by decide)
      · exact .nil

theorem floatToInteger_converted :
    Converted origin dest scratchFamilies (Conversion.floatToInteger src dst rule origin dest) := by
  refine .computed rfl (Quiet.append ?_ ?_)
  · split
    · exact .nil
    · exact .binary (floatMove_ne_xchg _) rfl (by simp [scratchFamilies])
  · split
    · exact .binary plain ord (by simp)
    · split
      · exact .binary plain ord (by simp)
      · exact .cons (.binary plain rfl (by simp [scratchFamilies]))
          (.binary (by decide) ord (by simp))

theorem apply_converted :
    Converted origin dest (conversionScratch rule.kind)
      (Conversion.apply src dst rule origin dest) := by
  unfold Conversion.apply
  cases kind : rule.kind with
  | review => exact review_converted
  | signExtend | zeroExtend | stagedExtend => exact extend_converted plain ord
  | floatToFloat =>
    exact .computed rfl (.cons
      (.binary plain rfl (List.mem_cons_of_mem _ (by decide))) (settleFloat_quiet ord))
  | integerToFloat => exact integerToFloat_converted plain ord
  | floatToInteger => exact floatToInteger_converted plain ord

end

end

end

end Lower
end Nasm64
