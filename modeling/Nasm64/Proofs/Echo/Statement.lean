import Nasm64.Proofs.Echo.Basic
import Nasm64.Proofs.Text.Decimal

/-! Statements and methods do the same in two runs, up to their comments. -/
namespace Nasm64

open Lower Code Echoes

inductive Code.SameButComments : Code → Code → Prop
  | nil : SameButComments [] []
  | line (line : Line) {code other : Code} (rest : SameButComments code other) :
    SameButComments (line :: code) (line :: other)
  | left {text : String} (single : '\n' ∉ text.toList) {code other : Code}
    (rest : SameButComments code other) : SameButComments (.comment text :: code) other
  | right {text : String} (single : '\n' ∉ text.toList) {code other : Code}
    (rest : SameButComments code other) : SameButComments code (.comment text :: other)

namespace Code.SameButComments

theorem refl (code : Code) : SameButComments code code := by
  induction code with
  | nil => exact .nil
  | cons line rest ih => exact .line line ih

theorem append (before : SameButComments first second) (after : SameButComments code other) :
    SameButComments (first ++ code) (second ++ other) := by
  induction before with
  | nil => exact after
  | line line _ ih => exact .line line ih
  | left single _ ih => exact .left single ih
  | right single _ ih => exact .right single ih

end Code.SameButComments

namespace Lower

theorem Repeats.code (repeats : Repeats pair x) : Echoes pair x x SameButComments := by
  intro frame mirror matched
  apply (repeats matched).mono
  rintro ⟨code, next⟩ ⟨other, after⟩ ⟨rfl, again⟩
  exact ⟨.refl _, again⟩

section

variable {pair : Pairing} (shares : pair.SharesScope)

include shares

theorem Steps.repeats_shared {α : Type} {x : Lower α} (steps : Steps x effects) : Repeats pair x :=
  steps.repeats (fun name _ => shares.all name) fun _ _ _ => shares

theorem repeats_lowerDeclaration (pos : Position) (name : String) (ty : Ty) (init : Option Expr) :
    Repeats pair (lowerDeclaration pos name ty init) := by
  apply ((steps_declare pos name ty init).repeats_shared shares).bind
  intro code
  apply Repeats.bind _ fun _ => .pure _
  rintro frame _ ⟨margin, related, rfl⟩
  have found : (frame.withMargin margin).find? name = frame.find? name := by
    show margin.scope.lookup name = frame.scope.lookup name
    rw [← shares.same related]
    rfl
  refine .ok ⟨rfl, margin, related, ?_⟩
  simp only [found]
  rfl

theorem inScope_echoes (echoes : Echoes pair body body SameButComments) :
    Echoes pair (inScope body) (inScope body) SameButComments := by
  rintro frame _ ⟨margin, related, rfl⟩
  have scope : frame.scope = margin.scope := shares.same related
  apply (echoes ⟨margin, related, rfl⟩).bind
  rintro ⟨code, next⟩ ⟨other, _⟩ ⟨same, inner, again, rfl⟩
  refine .ok ⟨same, ⟨inner.warnings, margin.scope⟩, ?_, rfl⟩
  show pair.related ⟨next.warnings, frame.scope⟩ _
  rw [scope]
  exact shares.rescoped margin.scope again

end

end Lower

namespace Stmt

theorem describe_single (stmt : Stmt) : '\n' ∉ stmt.describe.toList := by
  have kind (kind : NodeKind) : '\n' ∉ kind.name.toList := by cases kind <;> decide
  have number (number : Int) : '\n' ∉ (toString number).toList :=
    fun mem => absurd (sign_or_digit_of_mem_toString mem) (by decide)
  show '\n' ∉ (if 0 < stmt.position.line then
    stmt.kind.name ++ " at " ++ toString stmt.position.line ++ ":" ++ toString stmt.position.column
    else stmt.kind.name).toList
  by_cases placed : 0 < stmt.position.line
  · rw [if_pos placed]
    simp only [String.toList_append, List.mem_append, kind, number, or_false, false_or]
    decide
  · rw [if_neg placed]
    exact kind _

variable {pair : Pairing}

theorem commentFor_echoes (stmt : Stmt) :
    Echoes pair (commentFor stmt) (commentFor stmt) SameButComments := by
  have step (env : Env) (frame : Frame) : commentFor stmt env frame = .ok (_, frame) :=
    yields_commentFor.mpr ⟨rfl, rfl⟩
  intro frame mirror matched
  rw [step, step]
  refine .ok ⟨?_, matched⟩
  by_cases left : pair.left.hasFeature .asmComments = true
  · by_cases right : pair.right.hasFeature .asmComments = true
    · rw [if_pos left, if_pos right]
      exact .refl _
    · rw [if_pos left, if_neg right]
      exact .left stmt.describe_single .nil
  · by_cases right : pair.right.hasFeature .asmComments = true
    · rw [if_neg left, if_pos right]
      exact .right stmt.describe_single .nil
    · rw [if_neg left, if_neg right]
      exact .nil

mutual

theorem lower_echoes (shares : pair.SharesScope) (last : Bool) : (stmt : Stmt) →
    Echoes pair (stmt.lower last) (stmt.lower last) SameButComments
  | declaration pos name ty init => (repeats_lowerDeclaration shares pos name ty init).code
  | assignment pos dst v => ((steps_lowerAssignment pos dst v).repeats_shared shares).code
  | returning pos v => ((steps_lowerReturn pos v last).repeats_shared shares).code
  | expression _ v => ((steps_lowerExpression v).repeats_shared shares).code
  | conditional _ cond whenTrue none => by
    apply repeat_bind ((steps_lowerCondition cond).repeats_shared shares)
    intro test
    apply repeat_bind (steps_newLabel.repeats_shared shares)
    intro done
    apply (inScope_echoes shares (lowerBlock_echoes shares false whenTrue)).bind
    intro body other same
    exact .pure (((SameButComments.refl _).append same).append (.refl _))
  | conditional _ cond whenTrue (some otherwise) => by
    apply repeat_bind ((steps_lowerCondition cond).repeats_shared shares)
    intro test
    apply repeat_bind (steps_newLabel.repeats_shared shares)
    intro done
    apply repeat_bind (steps_newLabel.repeats_shared shares)
    intro other
    apply (inScope_echoes shares (lowerBlock_echoes shares false whenTrue)).bind
    intro body twin same
    apply (inScope_echoes shares (lowerBlock_echoes shares false otherwise)).bind
    intro rest others alike
    exact .pure (((((SameButComments.refl _).append same).append (.refl _)).append alike).append (.refl _))
  | loop _ cond body => by
    apply repeat_bind (steps_newLabel.repeats_shared shares)
    intro start
    apply repeat_bind (steps_newLabel.repeats_shared shares)
    intro done
    apply repeat_bind ((steps_lowerCondition cond).repeats_shared shares)
    intro test
    apply (inScope_echoes shares (lowerBlock_echoes shares false body)).bind
    intro code other same
    exact .pure (((SameButComments.refl _).append same).append (.refl _))
  | block _ body => inScope_echoes shares (lowerBlock_echoes shares last body)

theorem lowerBlock_echoes (shares : pair.SharesScope) (top : Bool) : (stmts : List Stmt) →
    Echoes pair (lowerBlock top stmts) (lowerBlock top stmts) SameButComments
  | [] => .pure .nil
  | stmt :: rest => by
    have first := lower_echoes shares (top && rest.isEmpty) stmt
    have others := lowerBlock_echoes shares top rest
    rw [lowerBlock]
    apply (commentFor_echoes stmt).bind
    intro comment remark commented
    apply first.bind
    intro code twin same
    cases stmt.isReturn with
    | false =>
      apply others.bind
      intro code other alike
      exact .pure ((commented.append same).append alike)
    | true =>
      cases rest with
      | nil =>
        apply others.bind
        intro code other alike
        exact .pure ((commented.append same).append alike)
      | cons next rest =>
        apply repeat_bind (repeats_warn _ _ _)
        intro _
        exact .pure (commented.append same)

end

end Stmt

namespace Lower

variable {pair : Pairing}

theorem repeats_reserveSaved : Repeats pair reserveSaved := by
  apply Repeats.get_bind fun _ _ => rfl
  intro frame
  apply Repeats.mapM
  intro fam
  exact .ite ((repeats_reserve _ _).bind fun _ => .pure _) ((repeats_reserve _ _).bind fun _ => .pure _)

theorem repeats_warnUnused : Repeats pair warnUnused := by
  apply Repeats.get_bind fun _ _ => rfl
  intro frame
  induction frame.locals with
  | nil => exact .pure _
  | cons declared rest ih => exact (Repeats.ite (.pure _) (repeats_warn _ _ _)).bind fun _ => ih

end Lower

namespace Method

variable {pair : Pairing}

theorem lowerBody_echoes (shares : pair.SharesScope) (method : Method) :
    Echoes pair method.lowerBody method.lowerBody SameButComments := by
  apply repeat_bind ((steps_lowerParameters method.name 0 method.parameters).repeats_shared shares)
  intro params
  apply (Stmt.lowerBlock_echoes shares true (method.body.getD [])).bind
  intro body other same
  apply get_bind fun _ _ => rfl
  intro frame
  exact .ite .fail (.pure ((SameButComments.refl _).append same))

theorem lower_echoes (shares : pair.SharesScope) (method : Method) :
    Echoes pair method.lower method.lower SameButComments := by
  apply ite .fail
  apply (lowerBody_echoes shares method).bind
  intro body other same
  apply repeat_bind repeats_reserveSaved
  intro saved
  apply repeat_bind repeats_warnUnused
  intro _
  apply read_bind
  · simp only [pair.agrees.signature, pair.agrees.resultLabel, pair.agrees.shadowSpace,
      pair.agrees.stackAlignment]
  · apply get_bind fun _ _ => rfl
    intro frame
    cases frameSize? frame.position pair.left.shadowSpace pair.left.stackAlignment with
    | none => exact fun _ _ _ => .error
    | some size =>
      refine .pure ?_
      unfold surround
      exact ((((SameButComments.refl _).append same).append (.refl _)).append (.refl _)).append (.refl _)

end Method

end Nasm64
