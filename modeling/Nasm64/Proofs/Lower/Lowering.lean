import Nasm64.Proofs.Lower.Basic

/-! The successful runs of the consumers of a node, in terms of the runs of the node. -/
namespace Nasm64

namespace Lowering

open Lower

variable {env : Env} {frame next : Frame} {node : Lowering}

theorem yields_prepare :
    Yields (node.prepare dst) env frame frag next ↔
      dst.valid = true ∧ ∃ inner after, Yields node.value env (frame.push dst) inner after ∧
      frag = settle inner dst ∧ next = after.pop := by
  simp [prepare, yields_ite, and_comm, eq_comm (a := frag), eq_comm (a := next)]

theorem yields_finish : Yields (node.finish allowed frag) env frame opnd next ↔
    allowed.contains frag.shape = true ∧ opnd = frag.operand? .reg ∧ next = frame := by
  simp only [finish, yields_liftCause, Fragment.finish]
  split <;> simp_all [eq_comm]

/-- Code that leaves a value in a register comes from an operand or from code for it. -/
theorem yields_into :
    Yields (node.into dst) env frame code next ↔
      dst.valid = true ∧ ∃ inner after, Yields node.value env (frame.push dst) inner after ∧
      inner.shape ≠ .effect ∧ code = (settle inner dst).code ∧ next = after.pop := by
  have allowed : ∀ inner : Lowered,
      ([.value] : List Shape).contains (settle inner dst).shape = true ↔ inner.shape ≠ .effect := by
    intro inner
    cases inner with
    | inline | effect => simp [settle, Fragment.shape]
    | value code r =>
      simp only [settle]
      split <;> simp [Fragment.shape]
  simp only [into, yields_bind, yields_prepare, yields_finish, yields_pure]
  grind

def isDirect (address : Address) (target : Register) : Bool :=
  address.base.text == target.name && address.displacement == 0 && address.index.isNone

theorem yields_address :
    Yields node.address env frame frag next →
      ∃ tgt start, Yields (destination node.position (.pointer node.type)) env frame tgt start ∧
      ∃ code located after, Yields (node.place (some tgt)) env (start.hold tgt) (code,
        located) after ∧ (located.address.inRegisters = false ∧
        frag = .inline (.place located.address) ∧ next = start.unhold tgt after ∨
        located.address.inRegisters = true ∧
        frag =
        .value (code ++ if isDirect located.address tgt then [] else [.lea tgt located.address]) tgt
        ∧ next = start.unhold tgt { after with held := after.held.drop located.held }) := by
  simp only [address, yields_bind, yields_holding]
  rintro ⟨tgt, start, chosen, after, ⟨⟨code, located⟩, mid, placed, run⟩, rfl⟩
  refine ⟨tgt, start, chosen, code, located, mid, placed, ?_⟩
  cases inside : located.address.inRegisters <;> simp [inside] at run <;> simp [← run, isDirect]

theorem yields_decay :
    Yields node.decay env frame fragment next →
      ∃ inner middle, Yields node.address env frame inner middle ∧
      ((∃ opnd tgt, inner = .inline opnd ∧
        Yields (destination node.position (.pointer node.type.target)) env middle tgt next ∧
        fragment = .value [.binary .lea (.reg tgt) opnd] tgt) ∨
        (inner.shape ≠ .inline ∧ fragment = inner ∧ next = middle)) := by
  simp only [decay, yields_bind]
  rintro ⟨inner, middle, addressed, run⟩
  refine ⟨inner, middle, addressed, ?_⟩
  cases inner with
  | inline opnd =>
    simp at run
    obtain ⟨tgt, chosen, rfl⟩ := run
    exact .inl ⟨opnd, tgt, rfl, chosen, rfl⟩
  | value | effect =>
    obtain ⟨rfl, rfl⟩ := yields_pure.mp run
    exact .inr ⟨by simp [Fragment.shape], rfl, rfl⟩

def baseHint (target : Register) : Option Register :=
  if target.isFloat then none else some (target.resize 8)

theorem yields_load :
    Yields node.load env frame frag next →
      (node.type.isArray = true ∧ Yields node.decay env frame frag next) ∨
      (node.type.isArray = false ∧ node.type.isScalar = true ∧
        ∃ tgt start, Yields (destination node.position node.type) env frame tgt start ∧
        ∃ code located after, Yields (node.place (baseHint tgt)) env (start.hold tgt) (code,
        located) after ∧ (located.address.inRegisters = false ∧
        frag = .inline (.mem node.type.registerSize located.address) ∧
        next = start.unhold tgt after ∨ located.address.inRegisters = true ∧
        frag = .value (code ++ move tgt (.mem node.type.registerSize located.address)) tgt ∧
        next = start.unhold tgt { after with held := after.held.drop located.held })) := by
  simp only [load, yields_ite, yields_bind, yields_holding]
  rintro (⟨array, run⟩ | ⟨array, ⟨_, failed⟩ | ⟨scalar, tgt, start, chosen, after,
    ⟨⟨code, located⟩, mid, placed, run⟩, rfl⟩⟩)
  · exact .inl ⟨array, run⟩
  · simp at failed
  · refine .inr ⟨by simpa using array, by simpa using scalar, tgt, start, chosen, code, located, mid,
      placed, ?_⟩
    cases inside : located.address.inRegisters <;> simp [inside] at run <;> simp [← run]

end Lowering
end Nasm64
