import Nasm64.Lower.Place
import Nasm64.Proofs.Lower.Lowering

/-! The successful runs that compute addresses. -/
namespace Nasm64.Lower

variable {env : Env} {frame next : Frame}

theorem yields_placeVariable {pos : Position} {name : String} {res : Code × Located} :
    Yields (placeVariable pos name) env frame res next ↔
      ∃ slot, frame.find? name = some slot ∧ next = frame.refer slot ∧
      res = ([], { address := .frameSlot slot.offset }) := by
  simp [placeVariable, yields_lookup, and_assoc]
  grind

theorem yields_placePointer :
    Yields (placePointer ptr hint) env frame res next →
      (∃ r code, hint.filter Register.valid = some r ∧
        Yields (ptr.into (r.resize 8)) env frame code next ∧
        res = (code, { address := { base := .reg (r.resize 8) } })) ∨
      (∃ r code, hint.filter Register.valid = none ∧ frame.free false 8 = .ok r ∧
        Yields (ptr.into (r.resize 8)) env ((frame.touch r.family).push r) code next ∧
        res = (code, { address := { base := .reg (r.resize 8) }, held := 1 })) := by
  unfold placePointer
  cases hint.filter Register.valid with
  | some r =>
    simp only [yields_bind, yields_pure]
    rintro ⟨code, _, run, rfl, rfl⟩
    exact .inl ⟨r, code, rfl, run, rfl⟩
  | none =>
    simp only [yields_bind, yields_acquire, yields_pushRegister, yields_pure]
    rintro ⟨r, _, ⟨found, rfl⟩, _, _, rfl, code, _, run, rfl, rfl⟩
    exact .inr ⟨r, code, trivial, found, run, rfl⟩

theorem yields_placeDeref : Yields (placeDeref pos ptr hint) env frame res next ↔
    ptr.type.isPointer = true ∧ Yields (placePointer ptr hint) env frame res next := by
  unfold placeDeref
  cases ptr.type.isPointer <;> simp

theorem yields_addIndex {located : Located} {subscript : Lowering} {elementSize : Int64}
    {res : Code × Located} :
    Yields (addIndex located subscript elementSize) env frame res next →
      ∃ r, frame.free false 8 = .ok r ∧
      ∃ evaluation after, Yields (subscript.into (r.resize subscript.type.registerSize)) env
        ((frame.touch r.family).push r) evaluation after ∧
      ((located.address.index = none ∧ next = after ∧
        res = (evaluation ++ indexCode r subscript.type elementSize,
        { address := { located.address with index := some r }, held := located.held + 1 })) ∨
        ∃ idx, located.address.index = some idx ∧ next = after.pop ∧
        res = (evaluation ++ indexCode r subscript.type elementSize ++
        [.binary .add (.reg idx) (.reg r)], located)) := by
  unfold addIndex
  simp only [yields_bind, yields_acquire, yields_pushRegister]
  rintro ⟨r, _, ⟨found, rfl⟩, _, _, rfl, evaluation, after, evaluated, run⟩
  refine ⟨r, found, evaluation, after, evaluated, ?_⟩
  cases indexed : located.address.index <;> simp [indexed] at run <;> simp [← run]

theorem yields_placeElement {pos : Position} {base idx : Lowering}
    {const : Option Int64} {hint : Option Register} {result : Code × Located} :
    Yields (placeElement pos base idx const hint) env frame result next →
      (base.type.isPointer = true ∨ base.type.isArray = true) ∧ idx.type.isInteger = true ∧
      ∃ code located middle, Yields (placeBase base hint) env frame (code, located) middle ∧
        ((∃ index, const = some index ∧ next = middle ∧
            result = (code, { located with
              address := located.address.advance (base.type.target.size * index) })) ∨
          (const = none ∧ ∃ indexing outer,
            Yields (addIndex located idx base.type.target.size) env middle
              (indexing, outer) next ∧ result = (code ++ indexing, outer))) := by
  simp only [placeElement, yields_ite, yields_fail, and_false, false_or, yields_bind]
  rintro ⟨kind, ⟨code, located⟩, middle, placed, integer, run⟩
  refine ⟨by grind, by simpa using integer, code, located, middle, placed, ?_⟩
  cases const with
  | some index =>
    obtain ⟨rfl, rfl⟩ := yields_pure.mp run
    exact .inl ⟨index, rfl, rfl, rfl⟩
  | none =>
    obtain ⟨⟨indexing, outer⟩, _, indexed, rest⟩ := yields_bind.mp run
    obtain ⟨rfl, rfl⟩ := yields_pure.mp rest
    exact .inr ⟨rfl, indexing, outer, indexed, rfl⟩

theorem yields_placeMember {pos : Position} {base : Lowering} {field : String}
    {hint : Option Register} {res : Code × Located} :
    Yields (placeMember pos base field hint) env frame res next →
      ∃ code located, Yields (placeBase base hint) env frame (code, located) next ∧
      ∃ found, (Expr.record base.type).field? field = some found ∧
        res = (code, { located with address := located.address.advance found.offset }) := by
  simp only [placeMember, yields_bind]
  rintro ⟨⟨code, located⟩, _, placed, run⟩
  cases known : (Expr.record base.type).field? field with
  | none => simp [known] at run
  | some found =>
    simp only [known, yields_pure] at run
    obtain ⟨rfl, rfl⟩ := run
    exact ⟨code, located, placed, found, rfl, rfl⟩

end Nasm64.Lower
