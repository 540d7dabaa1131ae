import Nasm64.Proofs.Layout.Trace
import Nasm64.Proofs.Pressure.Program
import Nasm64.Proofs.Stack.Discipline

/-! The frame of a method: its slots are disjoint, aligned and inside. -/
namespace Nasm64

open Lower SavedSlot

namespace Stmt

mutual

/-- What a statement needs of the frame, in order of lowering. -/
def needs : Stmt → List Need
  | declaration _ _ ty init => declarationNeeds ty init
  | assignment _ target value => value.needs ++ target.needs
  | returning _ value => value.elim [] Expr.needs
  | expression _ value => value.needs
  | conditional _ condition whenTrue none => condition.needs ++ blockNeeds whenTrue
  | conditional _ condition whenTrue (some otherwise) =>
    condition.needs ++ (blockNeeds whenTrue ++ blockNeeds otherwise)
  | loop _ condition body => condition.needs ++ blockNeeds body
  | block _ body => blockNeeds body
termination_by structural stmt => stmt

def blockNeeds : List Stmt → List Need
  | [] => []
  | stmt :: rest => stmt.needs ++ if stmt.isReturn then [] else blockNeeds rest
termination_by structural stmts => stmts

end

end Stmt

theorem Lower.lowerDeclaration_provides (pos : Position) (name : String) (ty : Ty)
    (init : Option Expr) :
    Provides (lowerDeclaration pos name ty init) (declarationNeeds ty init) :=
  ((steps_declare pos name ty init).provides_needs (needs_declarationEffects name ty init)).before fun _ =>
    .returning (.modify fun _ => rfl)

theorem Lower.lowerCondition_provides (cond : Expr) : Provides (lowerCondition cond) cond.needs :=
  (steps_lowerCondition cond).provides_needs cond.needs_effects

namespace Stmt

mutual

theorem lower_provides (last : Bool) : (stmt : Stmt) → Provides (stmt.lower last) stmt.needs
  | declaration pos name ty init => lowerDeclaration_provides pos name ty init
  | assignment pos dst v => (steps_lowerAssignment pos dst v).provides_needs (needs_assignmentEffects dst v)
  | returning pos none => (steps_lowerReturn pos none last).provides
  | returning pos (some v) => (steps_lowerReturn pos v last).provides_needs v.needs_effects
  | expression _ v => (steps_lowerExpression v).provides_needs v.needs_effects
  | conditional _ cond whenTrue none =>
    (lowerCondition_provides cond).bind fun _ => .after (.of_idle idle_newLabel) fun _ =>
      (inScope_provides (lowerBlock_provides false whenTrue)).returning
  | conditional _ cond whenTrue (some otherwise) =>
    (lowerCondition_provides cond).bind fun _ => .after (.of_idle idle_newLabel) fun _ =>
      .after (.of_idle idle_newLabel) fun _ =>
        (inScope_provides (lowerBlock_provides false whenTrue)).bind fun _ =>
          (inScope_provides (lowerBlock_provides false otherwise)).returning
  | loop _ cond body =>
    .after (.of_idle idle_newLabel) fun _ => .after (.of_idle idle_newLabel) fun _ =>
      (lowerCondition_provides cond).bind fun _ =>
        (inScope_provides (lowerBlock_provides false body)).returning
  | block _ body => inScope_provides (lowerBlock_provides last body)

theorem lowerBlock_provides (top : Bool) :
    (stmts : List Stmt) → Provides (lowerBlock top stmts) (blockNeeds stmts)
  | [] => .pure _
  | stmt :: rest => by
    refine .after (.of_idle (idle_commentFor stmt)) fun _ => (lower_provides _ stmt).bind fun _ => ?_
    have others := lowerBlock_provides top rest
    cases returns : stmt.isReturn with
    | false => exact others.returning
    | true =>
      cases rest with
      | nil => exact others.returning
      | cons next rest => exact .after (.of_idle (idle_warn _ _ _)) fun _ => .pure _

end

end Stmt

namespace Lower

def savedNeed (family : Family) : Need := if family.isFloat then ⟨16, 16⟩ else ⟨8, 8⟩

def SavedSlot.frameSlot (slot : SavedSlot) : FrameSlot := ⟨savedNeed slot.register.family, slot.offset⟩

variable {env : Env} {frame next : Frame}

theorem preserve_handsOut (run : Yields (preserve fam) env frame slot next) :
    HandsOut env (preserve fam) frame [slot.frameSlot] slot next ∧ slot.register = ⟨fam, 8⟩ ∧
      next = { frame with position := next.position } := by
  unfold preserve at run ⊢
  cases float : fam.isFloat
  all_goals
    simp only [float, Bool.false_eq_true, if_true, if_false] at run ⊢
    obtain ⟨offset, mid, reserved, ended⟩ := yields_bind.mp run
    obtain ⟨rfl, rfl⟩ := yields_pure.mp ended
    obtain ⟨_, same⟩ := Prod.mk.inj (yields_reserve.mp reserved)
    refine ⟨?_, rfl, by rw [← same]⟩
    simp only [frameSlot, savedNeed, float, Bool.false_eq_true, if_true, if_false]
    exact (HandsOut.reserved reserved).before ended rfl

theorem preserveAll_handsOut {families : List Family} {saved : List SavedSlot}
    (run : Yields (families.mapM preserve) env frame saved next) :
    HandsOut env (families.mapM preserve) frame (saved.map frameSlot) saved next ∧
      saved.map register = families.map (⟨·, 8⟩) ∧
      next = { frame with position := next.position } := by
  induction families generalizing frame saved with
  | nil =>
    obtain ⟨rfl, rfl⟩ := yields_pure.mp run
    exact ⟨.nothing run rfl, rfl, rfl⟩
  | cons fam rest ih =>
    rw [List.mapM_cons] at run ⊢
    simp only [yields_bind, yields_pure] at run
    obtain ⟨slot, mid, one, others, _, all, rfl, rfl⟩ := run
    obtain ⟨first, named, moved⟩ := preserve_handsOut one
    obtain ⟨more, listed, further⟩ := ih all
    refine ⟨?_, by simp [named, listed], further.trans (by rw [moved])⟩
    exact first.bind (more.before (yields_pure.mpr ⟨rfl, rfl⟩) rfl)

/-- The warning about a variable whose slot nothing refers to. -/
def Local.unused (declared : Local) : Warning :=
  ⟨.extra, declared.position, "variable '" ++ declared.name ++ "' is declared but never used"⟩

theorem warnUnused_eq (run : Yields warnUnused env frame u next) : next = { frame with
    warnings := frame.warnings ++ if env.hasWarning .extra then (frame.locals.filter fun declared =>
      !frame.referenced.contains declared.offset).map Local.unused else [] } := by
  have each {referenced : List Int64} {frame : Frame} (locals : List Local)
      (run : Yields (locals.forM fun declared => if referenced.contains declared.offset then pure ()
        else warn .extra declared.position declared.unused.message) env frame u next) :
      next = { frame with warnings := frame.warnings ++ if env.hasWarning .extra then
        (locals.filter fun declared => !referenced.contains declared.offset).map Local.unused else [] } := by
    induction locals generalizing frame with
    | nil =>
      rw [← (yields_pure.mp run).2]
      split <;> simp
    | cons declared rest ih =>
      obtain ⟨_, mid, warned, run⟩ := yields_bind.mp run
      rw [ih run]
      dsimp only at warned
      split at warned
      · rename_i referred
        rw [← (yields_pure.mp warned).2, List.filter_cons_of_neg (by simpa using referred)]
      · rename_i absent
        rw [yields_warn.mp warned, List.filter_cons_of_pos (by simpa using absent)]
        cases env.hasWarning .extra <;> simp [Local.unused]
  simp only [warnUnused, yields_bind, yields_get] at run
  obtain ⟨start, _, ⟨rfl, rfl⟩, run⟩ := run
  exact each _ run

/-- Slots that keep apart, each at a multiple of its alignment, inside a frame that is aligned itself
and has the shadow space left below them. -/
structure WellLaid (alignment shadow size : Int) (slots : List FrameSlot) : Prop where
  apart : slots.Pairwise FrameSlot.Disjoint
  aligned : ∀ slot ∈ slots, slot.step ∣ slot.offset.toInt
  within : ∀ slot ∈ slots, slot.bytes ≤ slot.offset.toInt ∧ slot.offset.toInt + shadow ≤ size
  multiple : alignment ∣ size

end Lower

namespace Method

variable {method : Method} {env : Env} {code : Code} {next : Frame}

/-- What a method needs of its frame, apart from the registers that it preserves. -/
def needs (method : Method) : List Need :=
  parameterNeeds method.parameters ++ Stmt.blockNeeds (method.body.getD [])

/-- How far the slots of a method reach below the frame pointer, once the families are known that it
has to preserve. -/
def extent (method : Method) (next : Frame) : Int :=
  Need.extent 0 (method.needs ++ next.savedFamilies.map savedNeed)

theorem lowerBody_provides (method : Method) : Provides method.lowerBody method.needs := by
  refine ((steps_lowerParameters _ _ _).provides_needs (needs_parameterEffects _)).bind fun _ => ?_
  refine (Stmt.lowerBlock_provides _ _).before fun _ => .after (.of_idle .get) fun _ => ?_
  split
  · exact fun _ _ _ _ run => absurd run yields_fail
  · exact .pure _

/-- How the code of a method comes about. The body is lowered first, then slots are taken for the
registers that it has to preserve, and then the size of the frame is known. -/
structure Built (method : Method) (env : Env) (code : Code) (next : Frame) (slots : List FrameSlot)
    (saved : List SavedSlot) (size : Int64) (body : Code) (after : Frame) : Prop where
  lowered : Yields method.lowerBody env {} body after
  reserved : ∃ last, Yields (after.savedFamilies.mapM preserve) env after saved last
  noted : next.touched = after.touched
  stored : next.data = after.data
  hands : HandsOut env method.lower {} (slots ++ saved.map SavedSlot.frameSlot) code next
  asked : slots.map (·.toNeed) = method.needs
  listed : saved.map SavedSlot.register = next.savedFamilies.map (⟨·, 8⟩)
  sized : frameSize? next.position env.shadowSpace env.stackAlignment = some size
  surrounds : code = surround env.signature.label env.resultLabel size saved body

theorem lower_built (run : Yields method.lower env {} code next) :
    ∃ slots saved size body after, method.Built env code next slots saved size body after := by
  have whole := run
  unfold lower at run
  split at run
  · exact absurd run yields_fail
  · rename_i plain
    obtain ⟨body, after, lowered, run⟩ := yields_bind.mp run
    obtain ⟨saved, last, reserved, run⟩ := yields_bind.mp run
    obtain ⟨slots, hands, same⟩ := method.lowerBody_provides lowered
    obtain ⟨_, _, got, reserving⟩ := yields_bind.mp reserved
    obtain ⟨more, listed, moved⟩ := preserveAll_handsOut reserving
    have ended := run
    obtain ⟨rfl, rfl⟩ := yields_get.mp got
    simp only [yields_bind, yields_read, yields_get] at run
    obtain ⟨_, _, warned, _, _, ⟨rfl, rfl⟩, _, _, ⟨rfl, rfl⟩, run⟩ := run
    have touched : last.touched = after.touched := by rw [moved]
    have data : last.data = after.data := by rw [moved]
    have noted := (congrArg Frame.touched (warnUnused_eq warned)).trans touched
    have stored := (congrArg Frame.data (warnUnused_eq warned)).trans data
    split at run
    · exact absurd run yields_throw
    · rename_i size found
      obtain ⟨rfl, rfl⟩ := yields_pure.mp run
      have still := idle_warnUnused.still warned
      refine ⟨slots, saved, size, body, after, lowered, ⟨last, reserving⟩, noted, stored, ?_, same, ?_,
        found, rfl⟩
      · rw [lower, if_neg plain]
        exact hands.bind (HandsOut.before ((HandsOut.nothing got rfl).bind more) ended still)
      · rw [listed, Frame.savedFamilies, Frame.savedFamilies, noted]

section

variable {slots : List FrameSlot} {saved : List SavedSlot} {size : Int64} {body : Code} {after : Frame}

section

variable (built : method.Built env code next slots saved size body after)
  (positive : 0 < env.stackAlignment.toInt) (shadowed : 0 ≤ env.shadowSpace.toInt)
  (small : method.extent next + env.shadowSpace.toInt < 2 ^ 62)
  (fits : Word.leastPower (method.extent next + env.shadowSpace.toInt) + env.stackAlignment.toInt ≤ 2 ^ 63)

include built positive shadowed small fits

/-- Every slot of the method is laid where exact arithmetic puts it, and the frame has room for all. -/
theorem Built.laid :
    FrameSlot.Laid 0 (slots ++ saved.map frameSlot) ∧
      Need.extent 0 ((slots ++ saved.map frameSlot).map (·.toNeed)) = method.extent next ∧
      method.extent next + env.shadowSpace.toInt ≤ size.toInt ∧
      env.stackAlignment.toInt ∣ size.toInt := by
  have needs : (slots ++ saved.map frameSlot).map (·.toNeed) =
      method.needs ++ next.savedFamilies.map savedNeed := by
    have families := congrArg (List.map fun r => savedNeed r.family) built.listed
    rw [List.map_map, List.map_map] at families
    rw [List.map_append, built.asked, List.map_map]
    exact congrArg (method.needs ++ ·) families
  unfold extent at *
  rw [← needs] at small fits ⊢
  obtain ⟨reached, laid⟩ := built.hands.laid (Int.le_refl _) (by simp only [Int64.toInt_zero]; omega)
  simp only [Int64.toInt_zero] at reached laid
  have natural := Need.le_extent 0 ((slots ++ saved.map frameSlot).map (·.toNeed))
  rw [← reached] at small fits natural ⊢
  exact ⟨laid, rfl, frameSize?_bounds built.sized positive natural shadowed small fits⟩

theorem Built.wellLaid :
    WellLaid env.stackAlignment.toInt env.shadowSpace.toInt size.toInt (slots ++
      saved.map frameSlot) := by
  obtain ⟨laid, reached, room, multiple⟩ := built.laid positive shadowed small fits
  refine ⟨laid.pairwise, fun slot mem => laid.aligned mem, fun slot mem => ?_, multiple⟩
  obtain ⟨low, high⟩ := laid.bounds mem
  omega

end

end

end Method

/-- Leaving a block brings back the variables of its start. Its slots stay where they are, below all
that came before. -/
theorem Stmt.lowerBlock_leaves {env : Env} {frame next : Frame} {top : Bool} {body : List Stmt}
    {code : Code} (run : Yields (inScope (lowerBlock top body)) env frame code next) :
    next.scope = frame.scope ∧ ∃ slots,
      HandsOut env (inScope (lowerBlock top body)) frame slots code next ∧
      slots.map (·.toNeed) = blockNeeds body ∧
      (0 ≤ frame.position.toInt → Need.extent frame.position.toInt (blockNeeds body) ≤ 2 ^ 62 →
        next.position.toInt = Need.extent frame.position.toInt (blockNeeds body) ∧
        FrameSlot.Laid frame.position.toInt slots) := by
  obtain ⟨slots, hands, same⟩ := inScope_provides (lowerBlock_provides top body) run
  obtain ⟨_, _, rfl⟩ := yields_inScope.mp run
  exact ⟨rfl, slots, hands, same, fun natural fits => same ▸ hands.laid natural (same ▸ fits)⟩

/-- The frame of every method, at a positive alignment. Its slots are those that the tree asks for, in
order, and then one for each register to preserve. When exact arithmetic stays below `2 ^ 62` and the
frame can be rounded up to the alignment, they are laid well. Leaving a block gives no slot back. -/
theorem frame_laid (env : Env) (positive : 0 < env.stackAlignment)
    (shadowed : 0 ≤ env.shadowSpace) :
    (∀ (method : Method) (code : Code) (next : Frame), Yields method.lower env {} code next →
      method.extent next + env.shadowSpace.toInt < 2 ^ 62 →
      Word.leastPower (method.extent next + env.shadowSpace.toInt) +
        env.stackAlignment.toInt ≤ 2 ^ 63 →
      ∃ slots saved size body,
        HandsOut env method.lower {} (slots ++ saved.map SavedSlot.frameSlot) code next ∧
        slots.map (·.toNeed) = method.needs ∧
        saved.map SavedSlot.register = next.savedFamilies.map (⟨·, 8⟩) ∧
        code = surround env.signature.label env.resultLabel size saved body ∧
        WellLaid env.stackAlignment.toInt env.shadowSpace.toInt size.toInt
          (slots ++ saved.map SavedSlot.frameSlot)) ∧
    (∀ (top : Bool) (body : List Stmt) (frame next : Frame) (code : Code),
      Yields (inScope (Stmt.lowerBlock top body)) env frame code next →
      next.scope = frame.scope ∧ ∃ slots,
        HandsOut env (inScope (Stmt.lowerBlock top body)) frame slots code next ∧
        slots.map (·.toNeed) = Stmt.blockNeeds body ∧
        (0 ≤ frame.position.toInt →
          Need.extent frame.position.toInt (Stmt.blockNeeds body) ≤ 2 ^ 62 →
          next.position.toInt = Need.extent frame.position.toInt (Stmt.blockNeeds body) ∧
          FrameSlot.Laid frame.position.toInt slots)) := by
  have aligned : 0 < env.stackAlignment.toInt := Int64.lt_iff_toInt_lt.mp positive
  have natural : 0 ≤ env.shadowSpace.toInt := Int64.le_iff_toInt_le.mp shadowed
  refine ⟨fun method code next run small fits => ?_,
    fun top body frame next code run => Stmt.lowerBlock_leaves run⟩
  obtain ⟨slots, saved, size, body, _, built⟩ := Method.lower_built run
  exact ⟨slots, saved, size, body, built.hands, built.asked, built.listed, built.surrounds,
    built.wellLaid aligned natural small fits⟩

/-- A method with a parameter, a variable that is declared in two blocks, and the address of a sum. -/
def blocksMethod : Method :=
  let parameter : Expr := .ident {} "p" (.prim .i64)
  { position := {}
    name := "main"
    parameters := [⟨"p", .prim .i64⟩]
    result := .prim .i64
    body := some [.declaration {} "a" (.prim .u8) none,
      .block {} [.declaration {} "b" (.prim .i64) (some (.number {} 1 (.prim .i64)))],
      .block {} [.declaration {} "b" (.array 3 (.prim .u16)) none],
      .declaration {} "q" (.pointer (.prim .i64))
        (some (.addressOf {} (.binary {} .add parameter parameter (.prim .i64)))),
      .returning {} (some parameter)] }

/-- An environment for `blocksMethod` with the given alignment of the stack. -/
def Lower.Env.blocksAlignedTo (alignment : Int64) : Env where
  method := 0
  signature := blocksMethod.signature
  table := ⟨[]⟩
  settings := some { stackAlignment := alignment }

def Method.lowerNoting (method : Method) : Lower (Code × List Family) := do
  let code ← method.lower
  return (code, (← get).touched)

theorem Method.yields_of_lowerNoting {method : Method} {noted : Code × List Family} {next : Frame}
    (run : Yields method.lowerNoting env {} noted next) : Yields method.lower env {} noted.1 next ∧
    next.touched = noted.2 := by
  simp only [lowerNoting, yields_bind, yields_get, yields_pure] at run
  obtain ⟨code, _, lowered, _, _, ⟨rfl, rfl⟩, rfl, rfl⟩ := run
  exact ⟨lowered, rfl⟩

theorem frame_laid_blocks :
    (∃ code next, Yields blocksMethod.lower (.blocksAlignedTo 16) {} code next ∧
      ∃ slots saved size body, slots.map (·.toNeed) = blocksMethod.needs ∧ slots.length = 6 ∧
        code = surround "main" ".L0_ret" size saved body ∧
        WellLaid 16 32 size.toInt (slots ++ saved.map SavedSlot.frameSlot)) ∧
    ∃ code next, Yields (inScope (Stmt.lowerBlock true (blocksMethod.body.getD [])))
        (.blocksAlignedTo 16) { scope := [("p", ⟨8, 8, 1, .prim .i64⟩)], position := 8 } code next ∧
      next.scope = [("p", ⟨8, 8, 1, .prim .i64⟩)] ∧ next.position.toInt = 48 := by
  obtain ⟨methods, blocks⟩ := frame_laid (.blocksAlignedTo 16) (by decide) (by decide)
  constructor
  · obtain ⟨⟨code, touched⟩, next, run, none⟩ := Yields.of_check blocksMethod.lowerNoting
      (.blocksAlignedTo 16) {} (fun noted => noted.2.isEmpty) (by decide +kernel)
    obtain ⟨lowered, noted⟩ := Method.yields_of_lowerNoting run
    have saved : next.savedFamilies = [] := by
      rw [Frame.savedFamilies, noted, List.isEmpty_iff.mp none, List.mergeSort_nil]
    have extent : blocksMethod.extent next = 48 := by
      rw [Method.extent, saved]
      decide +kernel
    obtain ⟨slots, saved, size, body, _, asked, _, shape, laid⟩ := methods _ _ _ lowered
      (by rw [extent]; decide) (by rw [extent]; decide +kernel)
    have length : slots.length = 6 := by
      rw [← List.length_map, asked]
      decide +kernel
    exact ⟨code, next, lowered, slots, saved, size, body, asked, length, shape, laid⟩
  · obtain ⟨code, next, run, _⟩ := Yields.of_check
      (inScope (Stmt.lowerBlock true (blocksMethod.body.getD []))) (.blocksAlignedTo 16)
      { scope := [("p", ⟨8, 8, 1, .prim .i64⟩)], position := 8 } (fun _ => true) (by decide +kernel)
    obtain ⟨scope, slots, _, _, laid⟩ := blocks _ _ _ _ _ run
    exact ⟨code, next, run, scope, (laid (by decide) (by decide +kernel)).1.trans (by decide +kernel)⟩

/-- At an alignment of `2 ^ 63 - 1` the size of the frame wraps around to zero when it is rounded up,
and all slots lie outside. -/
theorem frame_wraps_at_large_alignment :
    ∃ code next, Yields blocksMethod.lower (.blocksAlignedTo 9223372036854775807) {} code next ∧
      blocksMethod.extent next + 32 < 2 ^ 62 ∧
      ∃ slots body, HandsOut (.blocksAlignedTo 9223372036854775807) blocksMethod.lower {} slots code
          next ∧ slots.map (·.toNeed) = blocksMethod.needs ∧
        code = surround "main" ".L0_ret" 0 [] body ∧
        ∀ slot ∈ slots, ¬ (slot.bytes ≤ slot.offset.toInt ∧ slot.offset.toInt + 32 ≤ 0) := by
  obtain ⟨⟨code, touched⟩, next, run, checked⟩ := Yields.of_check blocksMethod.lowerNoting
    (.blocksAlignedTo 9223372036854775807) {}
    (fun (code, touched) => touched.isEmpty && decide (code = surround "main" ".L0_ret" 0 []
      ((code.drop 4).take (code.length - 7)))) (by decide +kernel)
  obtain ⟨none, shape⟩ := Bool.and_eq_true_iff.mp checked
  obtain ⟨lowered, noted⟩ := Method.yields_of_lowerNoting run
  have empty : next.savedFamilies = [] := by
    rw [Frame.savedFamilies, noted, List.isEmpty_iff.mp none, List.mergeSort_nil]
  obtain ⟨slots, saved, _, _, _, built⟩ := Method.lower_built lowered
  have listed := built.listed
  have hands := built.hands
  rw [empty, List.map_nil, List.map_eq_nil_iff] at listed
  rw [listed, List.map_nil, List.append_nil] at hands
  refine ⟨code, next, lowered, ?_, slots, _, hands, built.asked, of_decide_eq_true shape, ?_⟩
  · rw [Method.extent, empty]
    decide +kernel
  · intro slot _ inside
    have positive := slot.bytes_pos
    omega

end Nasm64
