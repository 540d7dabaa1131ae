import Nasm64.Proofs.Emission.Expr
import Nasm64.Proofs.Soundness.Call
import Nasm64.Proofs.Soundness.Typing

/-! Every typed expression is sound, whatever is asked of it. -/
namespace Nasm64

open Lower

namespace Expr

variable {c : Context} {effects : List Effect} {expr : Expr}

theorem valueOnly_sound
    (meets : ∀ {labels}, Meets c labels effects v (Fragment.Proper c.typed expr.type)) :
    (expr.valueOnly v).Sound c effects := ⟨meets, fun _ _ _ => .refuse rfl⟩

theorem atPlace_sound (meets : Lowering.Places c effects place) : (expr.atPlace place).Sound c effects :=
  ⟨Lowering.load_meets meets, meets⟩

theorem lowering_sound (expr : Expr) (fits : c.typed → expr.Typed c.env.table c.scope) :
    expr.lowering.Sound c expr.effects := by
  cases expr with
  | number pos v ty => exact valueOnly_sound (lowerNumber_meets v)
  | float pos v ty => exact valueOnly_sound (lowerFloat_meets v ty)
  | bool pos v => exact valueOnly_sound (.pure (Fragment.proper_imm _))
  | string pos text => exact valueOnly_sound (lowerString_meets text)
  | ident pos name ty =>
    exact ⟨lowerVariable_meets fits, fun _ _ _ => .before (.lookup pos name) fun _ _ _ _ =>
      .pure ⟨Code.proper_nil, Address.proper_frameSlot _⟩⟩
  | binary pos op left right ty =>
    rw [lowering_binary]
    have lefts := lowering_sound left fun is => (fits is).1
    have rights := lowering_sound right fun is => (fits is).2.1
    refine valueOnly_sound (lowerBinary_meets lefts rights (fun four given => ?_) fun is => ?_)
    · unfold fourLeaves at given
      split at given
      · cases given
        simp only [effects]
        exact ⟨_, _, _, _, lowering_sound _ fun is => (fits is).1.1,
          lowering_sound _ fun is => (fits is).1.2.1, lowering_sound _ fun is => (fits is).2.1.1,
          lowering_sound _ fun is => (fits is).2.1.2.1, rfl, rfl⟩
      · cases given
    · rw [lowering_type, lowering_type]
      exact (fits is).2.2
  | unary pos op opnd =>
    have inner := lowering_sound opnd fits
    cases op with
    | negate =>
      exact valueOnly_sound ((lowerNegate_meets inner fun const => effects_of_constant?
        (by simpa using const)).mono fun _ _ proper => lowering_type opnd ▸ proper)
    | not => exact valueOnly_sound (lowerNot_meets inner effects_of_boolLiteral?)
    | complement =>
      exact valueOnly_sound ((lowerComplement_meets inner effects_of_integerLiteral?).mono
        fun _ _ proper => lowering_type opnd ▸ proper)
  | deref pos ptr =>
    have reached : ((deref pos ptr).atPlace (placeDeref pos ptr.lowering)).Sound c ptr.effects :=
      atPlace_sound fun _ _ hinted => .ite (fun _ => .refuse rfl) fun pointer =>
        placePointer_meets (lowering_sound ptr fits) (by simpa using pointer) hinted
    exact ⟨reached.value, reached.place⟩
  | addressOf pos place =>
    have nested : place.isDeref = true → place.lowering.nested = place.lowering.address ∧
        place.isPlace = true := by
      cases place with
      | deref => exact fun _ => ⟨rfl, rfl⟩
      | _ => exact fun other => by cases other
    refine valueOnly_sound ?_
    rw [type, effects, ← lowering_type]
    exact lowerAddressOf_meets (lowering_sound place fits) nested
  | cast pos opnd ty => exact valueOnly_sound (lowerCast_meets (lowering_sound opnd fits))
  | call pos name args ty =>
    have each : ∀ arg ∈ args, arg.lowering.Sound c arg.effects :=
      fun arg mem => lowering_sound arg fun is =>
        (argumentsTyped_iff.mp (fits is).1 arg mem).1
    refine valueOnly_sound ?_
    rw [lowerings_eq_map, effects, allEffects_eq]
    refine lowerCall_meets ?_ (fun is => ?_) (fun is => ?_)
    · rw [List.forall₂_map_left_iff, List.forall₂_map_right_iff]
      exact List.forall₂_same.mpr each
    · refine List.forall_mem_map.mpr fun arg mem => ?_
      rw [lowering_type]
      exact (argumentsTyped_iff.mp (fits is).1 arg mem).2
    · rw [List.map_map, show Lowering.type ∘ lowering = type from funext lowering_type]
      exact (fits is).2
  | index pos base idx =>
    exact atPlace_sound (placeElement_meets (lowering_sound base fun is => (fits is).1)
      (lowering_sound idx fun is => (fits is).2) effects_of_integerLiteral?)
  | member pos base field => exact atPlace_sound (placeMember_meets (lowering_sound base fits) field)
  | struct pos ty fields => exact valueOnly_sound (.refuse rfl)
termination_by sizeOf expr
decreasing_by
  all_goals subst_vars
  all_goals first
    | (simp +arith; done)
    | (have smaller := List.sizeOf_lt_of_mem ‹_›; simp +arith; omega)

end Expr
end Nasm64
