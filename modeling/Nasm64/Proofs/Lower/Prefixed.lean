import Nasm64.Lower.Prefixed
import Nasm64.Proofs.Lower.Lowering

/-! The successful runs of literals, casts and the operators in front of an operand. -/
namespace Nasm64

namespace Conversion

/-- A rule is one of the table, between the scalars of the types. -/
theorem between_listed (found : between src dst = .ok rule) :
    ∃ given wanted, src.scalar? = some given ∧ dst.scalar? = some wanted ∧
      (⟨given, wanted, rule⟩ : Entry Scalar Rule) ∈ standard := by
  unfold between lookup at found
  split at found
  · cases found
  · split at found
    · next entry search =>
      cases found
      have matched := List.find?_some search
      obtain ⟨original, listed, rfl⟩ := List.mem_map.mp (List.mem_of_find?_eq_some search)
      simp only [Entry.mapKey, Bool.and_eq_true, beq_iff_eq] at matched
      exact ⟨original.source, original.target, matched.1.symm, matched.2.symm, listed⟩
    · cases found

theorem convert_eq (known : between src dst = .ok rule) (origin : Source) (dest : Register) :
    convert src dst origin dest =
      .ok (apply (src.scalar?.getD .ptr) (dst.scalar?.getD .ptr) rule origin dest) := by
  simp [convert, known, bind, Except.bind, pure, Except.pure]

end Conversion

namespace Lower

variable {env : Env} {frame next : Frame}

theorem yields_lowerFloat : Yields (lowerFloat v ty) env frame frag next ↔ frag =
    .inline (.mem ty.registerSize (.atLabel (frame.data.addFloat v ty.registerSize).1)) ∧ next =
    { frame with data := (frame.data.addFloat v ty.registerSize).2 } := by
  simp [lowerFloat, addFloat, and_assoc, eq_comm (a := frag), eq_comm (a := next), and_comm]

theorem yields_lowerNumber :
    Yields (lowerNumber pos v ty) env frame frag next ↔
      (ty.isFloat = true ∧ Yields (lowerFloat (Double.ofWord v) ty) env frame frag next) ∨
      (ty.isFloat = false ∧ ty.registerSize ≠ 0 ∧
        frag = .inline (.imm (Word.fold v ty.registerSize ty.isSigned)) ∧ next = frame) := by
  cases float : ty.isFloat <;>
    simp [lowerNumber, float, yields_ite, eq_comm (a := frag), eq_comm (a := next)]

theorem yields_lowerString :
    Yields (lowerString pos text) env frame frag next ↔
      ∃ tgt start, Yields (destination pos (.pointer (.prim .u8))) env frame tgt start ∧
      frag = .value [.lea tgt (.atLabel (start.data.addString text).1)] tgt ∧
      next = { start with data := (start.data.addString text).2 } := by
  simp [lowerString, addString, and_assoc, eq_comm (a := frag), eq_comm (a := next), and_comm]

theorem yields_lowerVariable {pos : Position} {name : String} {frag : Lowered} :
    Yields (lowerVariable pos name) env frame frag next ↔
      ∃ slot, frame.find? name = some slot ∧
      ((slot.type.isArray = true ∧ ∃ tgt,
        Yields (destination pos slot.type) env (frame.refer slot) tgt next ∧
        frag = .value [.lea tgt { base := .slot slot.offset }] tgt) ∨
        (slot.type.isArray = false ∧ slot.type.isScalar = true ∧
        frag = .inline (.mem slot.type.registerSize (.frameSlot slot.offset)) ∧
        next = frame.refer slot)) := by
  simp only [lowerVariable, yields_bind, yields_lookup, yields_ite, yields_fail, yields_pure]
  grind

theorem yields_lowerAddressOfValue :
    Yields (lowerAddressOfValue pos node target) env frame frag next → node.type.isScalar = true ∧
      ∃ offset reserved, frame.reserve (Int64.ofInt node.type.registerSize) node.type.align =
        (offset, reserved) ∧ ∃ temporary start,
      (node.type.isFloat = true ∧ reserved.free true node.type.registerSize = .ok temporary ∧
        start = reserved.touch temporary.family ∨ node.type.isFloat = false ∧
        temporary = target.resize node.type.registerSize ∧ start = reserved) ∧
      ∃ code, Yields (node.into temporary) env start code next ∧
      frag = .value (code ++ store (.mem node.type.registerSize (.frameSlot offset)) temporary ++
        [.lea target (.frameSlot offset)]) target := by
  unfold lowerAddressOfValue
  cases node.type.isScalar with
  | false => simp
  | true =>
    cases node.type.isFloat <;> simp [yields_reserve, yields_acquire, and_assoc]
    all_goals grind

/-- Brings an address that is a value to a register, unless it is there. -/
def addressCopy (target : Register) (inner : Lowered) : Code :=
  match inner with
  | .inline place => [.binary .lea (.reg target) place]
  | .value code source =>
    code ++ if source.name == target.name then [] else [.mov (.reg target) (.reg source)]
  | .effect code => code

theorem yields_lowerAddressOfPlace :
    Yields (lowerAddressOfPlace node target) env frame frag next →
      ∃ inner, Yields node.address env frame inner next ∧ inner.shape ≠ .effect ∧
      frag = .value (addressCopy target inner) target := by
  simp only [lowerAddressOfPlace, yields_bind, Lowering.yields_finish]
  rintro ⟨inner, _, run, _, _, ⟨allowed, rfl, rfl⟩, rest⟩
  cases inner with
  | inline | value =>
    obtain ⟨rfl, rfl⟩ := yields_pure.mp rest
    exact ⟨_, run, by simp [Fragment.shape], rfl⟩
  | effect code => simp [Fragment.shape] at allowed

theorem yields_lowerAddressOf :
    Yields (lowerAddressOf pos node isDeref isPlace) env frame frag next →
      ∃ tgt start, Yields (destination pos (.pointer node.type)) env frame tgt start ∧
      ((isDeref = true ∧ ∃ inner, Yields node.nested env start inner next ∧
        frag = settle inner tgt) ∨ (isDeref = false ∧ ∃ after, next = start.unhold tgt after ∧
        (isPlace = true ∧ Yields (lowerAddressOfPlace node tgt) env (start.hold tgt) frag after ∨
        isPlace = false ∧ Yields (lowerAddressOfValue pos node tgt) env (start.hold tgt) frag
        after))) := by
  simp only [lowerAddressOf, yields_bind]
  rintro ⟨tgt, start, chosen, run⟩
  refine ⟨tgt, start, chosen, ?_⟩
  cases isDeref <;> cases isPlace <;> simp [yields_holding] at run ⊢ <;> grind

theorem yields_warn :
    Yields (warn kind pos message) env frame u next ↔
      next = { frame with
        warnings := frame.warnings ++
          if env.hasWarning kind then [⟨kind, pos, message⟩] else [] } := by
  cases warned : env.hasWarning kind <;> simp [warn, warned, and_assoc, eq_comm (b := next)]

/-- A warning about a cast leaves the rest of the frame alone, and never fails. -/
theorem warnCast_runs (pos : Position) (src dst : Ty) (env : Env) (frame : Frame) :
    ∃ warnings, Yields (warnCast pos src dst) env frame () { frame with warnings } := by
  have noted : ∀ kind message, ∃ warnings,
      Yields (warn kind pos message) env frame () { frame with warnings } :=
    fun _ _ => ⟨_, yields_warn.mpr rfl⟩
  have silent : ∃ warnings, Yields (pure ()) env frame () { frame with warnings } :=
    ⟨frame.warnings, yields_pure.mpr ⟨rfl, rfl⟩⟩
  unfold warnCast
  repeat' split
  all_goals first | exact noted _ _ | exact silent

/-- Where the value of a fragment is, if a conversion can start from there. -/
def conversionSource? (size : Int) : Lowered → Option Conversion.Source
  | .inline (.imm value) => some (.constant value)
  | .inline (.mem _ address) => some (.memory size address)
  | .value _ register => some (.register register)
  | _ => none

theorem yields_conversionSource : Yields (conversionSource node nested) env frame origin next ↔
    conversionSource? node.type.registerSize nested = some origin ∧ next = frame := by
  cases nested with
  | inline opnd => cases opnd <;> simp [conversionSource, conversionSource?, eq_comm]
  | value code r => simp [conversionSource, conversionSource?, eq_comm]
  | effect code => simp [conversionSource, conversionSource?]

/-- The frame once the float scratch register is noted, when a conversion uses it. -/
def Frame.touchScratch (frame : Frame) (kind : Conversion.Kind) : Frame :=
  if usesFloatScratch kind then frame.touch Register.floatScratch.family else frame

def convertedCode (source target : Ty) (rule : Conversion.Rule) (origin : Conversion.Source)
    (destination : Register) (inner : Lowered) : Option Lowered :=
  (Conversion.apply (source.scalar?.getD .ptr) (target.scalar?.getD .ptr) rule origin
    destination).prepend? inner.code

theorem yields_finishCast {pos : Position} {src dst : Ty} {rule : Conversion.Rule} {dest : Register}
    {inner : Lowered} {origin : Conversion.Source} {frag : Lowered}
    (known : Conversion.between src dst = .ok rule) :
    Yields (finishCast pos src dst rule dest inner origin) env frame frag next ↔
      convertedCode src dst rule origin dest inner = some frag ∧
      Yields (warnCast pos src dst) env (frame.touchScratch rule.kind) () next := by
  simp only [finishCast, yields_bind, yields_liftCause, Conversion.convert_eq known, convertedCode,
    Frame.touchScratch, Except.ok.injEq, and_assoc, exists_and_left, exists_eq_left']
  cases Fragment.prepend? inner.code (Conversion.apply (src.scalar?.getD .ptr)
      (dst.scalar?.getD .ptr) rule origin dest) <;>
    cases usesFloatScratch rule.kind <;> simp [and_comm]
  all_goals grind

theorem yields_lowerCast :
    Yields (lowerCast pos node ty) env frame frag next ↔
      (node.type.scalar?.isSome = true ∧ node.type.scalar? = ty.scalar? ∧
        Yields node.value env frame frag next) ∨
      (¬(node.type.scalar?.isSome = true ∧ node.type.scalar? = ty.scalar?) ∧ ty.isScalar = true ∧
        (node.type.isScalar = true ∨ node.type.isArray = true) ∧
        ∃ rule, Conversion.between node.type ty = .ok rule ∧
        ∃ tgt start, Yields (destination pos ty) env frame tgt start ∧
        ∃ stage mid, Yields (workFor pos tgt node.type) env (start.hold tgt) stage mid ∧
        ∃ inner after, Yields node.value env (mid.push stage) inner after ∧
        ∃ origin, conversionSource? node.type.registerSize inner = some origin ∧
        convertedCode node.type ty rule origin tgt inner = some frag ∧
        ∃ warned, Yields (warnCast pos node.type ty) env (after.pop.touchScratch rule.kind) ()
        warned ∧ next = start.unhold tgt warned) := by
  rw [lowerCast, yields_ite, yields_ite]
  simp only [yields_fail, and_false, false_or, Bool.and_eq_true, beq_iff_eq, Bool.or_eq_true,
    Bool.not_eq_true', Bool.or_eq_false_iff, not_or, Bool.not_eq_false, yields_bind,
    yields_liftCause, yields_holding, yields_pushRegister, yields_popRegister,
    yields_conversionSource, and_assoc]
  constructor
  · rintro (same | ⟨differs, scalar, sources, rule, _, known, rfl, tgt, start, chosen, _,
      ⟨stage, mid, works, _, _, rfl, inner, after, run, _, _, rfl, origin, _, found, rfl,
        finished⟩, rfl⟩)
    · exact .inl same
    · obtain ⟨converted, warned⟩ := (yields_finishCast known).mp finished
      refine .inr ⟨differs, scalar, ?_, rule, known, tgt, start, chosen, stage, mid, works,
        inner, after, run, origin, found, converted, _, warned, rfl⟩
      cases scalarSource : node.type.isScalar <;> simp_all
  · rintro (same | ⟨differs, scalar, sources, rule, known, tgt, start, chosen, stage, mid,
      works, inner, after, run, origin, found, converted, warned, noted, rfl⟩)
    · exact .inl same
    · refine .inr ⟨differs, scalar, ?_, rule, _, known, rfl, tgt, start, chosen, warned,
        ⟨stage, mid, works, (), _, rfl, inner, after, run, (), _, rfl, origin, _, found, rfl,
          (yields_finishCast known).mpr ⟨converted, noted⟩⟩, rfl⟩
      cases scalarSource : node.type.isScalar <;> simp_all

theorem yields_lowerUnaryValue :
    Yields (lowerUnaryValue pos op node ty) env frame frag next ↔
      ∃ tgt start, Yields (destination pos ty) env frame tgt start ∧
      ∃ code after, Yields (node.into tgt) env start code after ∧
      frag = .value (code ++ (unaryCode op tgt).1) tgt ∧
      next = if (unaryCode op tgt).2 then after.touch Register.floatScratch.family else after := by
  simp only [lowerUnaryValue, yields_bind, yields_ite, yields_touch, yields_pure]
  grind

/-- The literal that a minus in front of a constant amounts to, where it is one of the type. -/
def foldedNegation (ty : Ty) (constant : Option Constant) : Option Constant :=
  match constant with
  | some (.float value) => if ty.isFloat then some (.float value) else none
  | other => other

theorem yields_lowerNegate :
    Yields (lowerNegate pos node const) env frame frag next ↔
      (node.type.isInteger = true ∨ node.type.isFloat = true) ∧
      ((∃ folded, foldedNegation node.type const = some folded ∧
        ((node.type.isFloat = true ∧ Yields (lowerFloat folded.toDouble node.type) env frame frag
        next) ∨ (node.type.isFloat = false ∧ ∃ v, folded = .word v ∧
        Yields (lowerNumber pos v node.type) env frame frag next))) ∨
        (foldedNegation node.type const = none ∧
        Yields (lowerUnaryValue pos .negate node node.type) env frame frag next)) := by
  simp only [lowerNegate, foldedNegation]
  cases node.type.isInteger
  all_goals
    cases node.type.isFloat
    all_goals
      rcases const with _ | (v | val)
      all_goals simp

theorem yields_lowerNot :
    Yields (lowerNot pos node lit) env frame frag next ↔
      node.type.isBool = true ∧ ((∃ v, lit = some v ∧ frag = lowerBool !v ∧ next = frame) ∨
        (lit = none ∧ Yields (lowerUnaryValue pos .not node (.prim .bool)) env frame frag
        next)) := by
  unfold lowerNot
  cases node.type.isBool with
  | false => simp
  | true => cases lit <;> simp [eq_comm]

theorem yields_lowerComplement :
    Yields (lowerComplement pos node lit) env frame frag next ↔
      node.type.isInteger = true ∧ ((∃ v, lit = some v ∧
        Yields (lowerNumber pos (~~~v) node.type) env frame frag next) ∨
        (lit = none ∧ Yields (lowerUnaryValue pos .complement node node.type) env frame frag
        next)) := by
  unfold lowerComplement
  cases node.type.isInteger with
  | false => simp
  | true => cases lit <;> simp

end Lower
end Nasm64
