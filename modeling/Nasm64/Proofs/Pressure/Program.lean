import Nasm64.Proofs.Flow.Skeleton
import Nasm64.Proofs.Lower.Program
import Nasm64.Proofs.Pressure.Basic
import Nasm64.Proofs.Stack.Block

/-! Methods that are generated once their frames have a size. -/
namespace Nasm64

open Lower Attempt Idle

namespace Lower

variable {α β : Type}

def Succeeds (x : Lower α) : Prop := ∀ env frame, ∃ value next, Yields x env frame value next

theorem Idle.succeeds {x : Lower α} (idle : Idle x) : Succeeds x := fun env frame => by
  obtain ⟨v, next, ran, _⟩ := idle env frame.held rfl
  exact ⟨v, next, ran⟩

theorem Succeeds.bind {k : α → Lower β} (first : Succeeds x) (rest : ∀ v, Succeeds (k v)) :
    Succeeds (x >>= k) := by
  intro env frame
  obtain ⟨v, mid, ran⟩ := first env frame
  obtain ⟨res, next, continued⟩ := rest v env mid
  exact ⟨res, next, yields_bind.mpr ⟨v, mid, ran, continued⟩⟩

theorem Succeeds.mapM {action : α → Lower β} (succeeds : ∀ item, Succeeds (action item))
    (items : List α) : Succeeds (items.mapM action) := by
  induction items with
  | nil =>
    rw [List.mapM_nil]
    exact (pure _).succeeds
  | cons item rest ih =>
    rw [List.mapM_cons]
    exact (succeeds item).bind fun _ => ih.bind fun _ => (pure _).succeeds

theorem reserve_succeeds (size align : Int64) : Succeeds (reserve size align) :=
  fun _ _ => ⟨_, _, yields_reserve.mpr rfl⟩

def preserve (family : Family) : Lower SavedSlot := do
  let offset ← if family.isFloat then reserve 16 16 else reserve 8 8
  return ⟨⟨family, 8⟩, offset⟩

theorem reserveSaved_succeeds : Succeeds reserveSaved := by
  refine get.succeeds.bind fun frame => .mapM (fun fam => ?_) _
  by_cases float : fam.isFloat = true
  · simp only [float, if_true]
    exact (reserve_succeeds 16 16).bind fun _ => (pure _).succeeds
  · simp only [float]
    exact (reserve_succeeds 8 8).bind fun _ => (pure _).succeeds

theorem idle_warnUnused : Idle warnUnused := by
  refine get.bind fun frame => ?_
  induction frame.locals with
  | nil => exact .pure _
  | cons declared rest ih =>
    exact bind (.ite (fun _ => .pure _) fun _ => idle_warn _ _ _) fun _ => ih

end Lower

theorem Stmt.idle_commentFor (stmt : Stmt) : Idle (commentFor stmt) :=
  Idle.read.bind fun _ => .ite (fun _ => .pure _) fun _ => .pure _

namespace Method

/-- Whether a frame has a size once the body is lowered and the registers are preserved in the order
in which they were noted, which has to be the one of the register file. -/
def frameFits (method : Method) : Lower Bool := do
  let _ ← method.lowerBody
  let touched := (← get).touched
  let _ ← touched.mapM preserve
  let size := frameSize? (← get).position (← read).shadowSpace (← read).stackAlignment
  return size.isSome && decide (touched.Pairwise fun left right => left.code ≤ right.code)

theorem lower_of_frameFits {method : Method}
    (scalar : (method.result.isStruct || method.result.isArray) = false)
    (run : Yields method.frameFits env {} true next) :
    ∃ code next, Yields method.lower env {} code next := by
  simp only [frameFits, yields_bind, yields_get, yields_read, yields_pure] at run
  obtain ⟨body, after, lowered, _, _, ⟨rfl, rfl⟩, saved, last, reserved, _, _, ⟨rfl, rfl⟩, _, _,
    ⟨rfl, rfl⟩, _, _, ⟨rfl, rfl⟩, fits, rfl⟩ := run
  simp only [Bool.and_eq_true, Option.isSome_iff_exists, decide_eq_true_eq] at fits
  obtain ⟨⟨size, sized⟩, sorted⟩ := fits
  have inOrder : after.savedFamilies = after.touched :=
    List.mergeSort_of_pairwise (by simpa using sorted)
  obtain ⟨_, final, warned, _, pos, _⟩ := idle_warnUnused env last.held rfl
  refine ⟨surround env.signature.label env.resultLabel size saved body, final, ?_⟩
  rw [lower, scalar]
  refine yields_bind.mpr ⟨body, after, lowered, yields_bind.mpr ⟨saved, last, ?_, ?_⟩⟩
  · refine yields_bind.mpr ⟨after, after, yields_get.mpr ⟨rfl, rfl⟩, ?_⟩
    rw [inOrder]
    exact reserved
  · refine yields_bind.mpr ⟨_, final, warned, yields_bind.mpr ⟨env, final, ?_, ?_⟩⟩
    · exact yields_read.mpr ⟨rfl, rfl⟩
    · refine yields_bind.mpr ⟨final, final, yields_get.mpr ⟨rfl, rfl⟩, ?_⟩
      rw [pos, sized]
      exact yields_pure.mpr ⟨rfl, rfl⟩

theorem generate_of_yields {method : Method} {table : SymbolTable} {cfg : Settings} {idx : Nat} {code : Code}
    {frame : Frame}
    (run : Yields method.lower ⟨idx, method.signature, table, some cfg⟩ {} code frame) :
    method.generate table cfg idx = .ok ⟨code, frame.data, frame.warnings⟩ := by
  rw [Yields] at run
  simp [generate, ReaderT.run, StateT.run, run]

theorem generate_of_frameFits {method : Method} {table : SymbolTable} {cfg : Settings} {idx : Nat}
    {next : Frame} (scalar : (method.result.isStruct || method.result.isArray) = false)
    (fits : Yields method.frameFits ⟨idx, method.signature, table, some cfg⟩ {} true next) :
    ∃ output, method.generate table cfg idx = .ok output := by
  obtain ⟨code, last, run⟩ := lower_of_frameFits scalar fits
  exact ⟨_, generate_of_yields run⟩

end Method

/-- A program that consists of its entry method. -/
theorem Program.generate_of_frameFits {program : Program} {method : Method}
    (listed : program.methods = [method]) (named : method.name = "main")
    (scalar : (method.result.isStruct || method.result.isArray) = false)
    (declared : program.symbolTable = .ok table)
    (fits : Yields method.frameFits ⟨0, method.signature, table, some settings⟩ {} true next) :
    ∃ assembly, program.generate settings = .ok assembly := by
  refine generates declared (by simp [listed, named]) fun job mem => ?_
  rw [listed] at mem
  obtain rfl := List.mem_singleton.mp mem
  exact Method.generate_of_frameFits scalar fits

theorem exhausted_of_check {res : Except Halt Assembly}
    (passes : (match res with
      | .error (.failure ⟨_, .causedBy (.register (.exhausted false 8))⟩) => true
      | _ => false) = true) :
    ∃ pos,
      res = .error (.failure ⟨pos, .causedBy (.register (.exhausted false 8))⟩) := by
  split at passes
  · exact ⟨_, rfl⟩
  · cases passes

/-- An element of an array and three variables under a number of pending sums. -/
def crowdedSum : Nat → Expr
  | 0 =>
    let ty : Ty := .prim .i64
    let summand : Expr := .ident {} "b" ty
    let element : Expr := .index {} (.ident {} "a" (.array 4 ty)) summand
    .binary {} .add (.binary {} .add element summand ty) (.binary {} .add summand summand ty) ty
  | depth + 1 => .binary {} .add (.ident {} "b" (.prim .i64)) (crowdedSum depth) (.prim .i64)

def crowdedMain (depth : Nat) : Method :=
  ⟨{}, "main", [], .prim .i64, some [
    .declaration {} "a" (.array 4 (.prim .i64)) none, .declaration {} "b" (.prim .i64) none,
    .returning {} (some (crowdedSum depth))], false⟩

def crowded (depth : Nat) : Program where
  file := "a.x"
  structs := []
  externals := []
  methods := [crowdedMain depth]

theorem crowded_generates
    (fits : ∃ passed next, Yields (crowdedMain depth).frameFits
      ⟨0, (crowdedMain depth).signature, ⟨[(crowdedMain depth).signature]⟩, some settings⟩ {} passed
      next ∧ passed = true) : ∃ assembly, (crowded depth).generate settings = .ok assembly := by
  obtain ⟨_, next, run, rfl⟩ := fits
  exact Program.generate_of_frameFits rfl rfl rfl rfl run

/-- Four registers are reserved for the leaves when the element needs another one for its index. Four
sums are pending then, so there is none, and the error is reported instead of falling back. -/
theorem crowded_exhausts :
    (∃ assembly, (crowded 4).generate (Settings.setFeature {} .fastPath false) = .ok assembly) ∧
    ∃ position, (crowded 4).generate (Settings.setFeature {} .fastPath true) =
      .error (.failure ⟨position, .causedBy (.register (.exhausted false 8))⟩) := by
  refine ⟨crowded_generates (Yields.of_check (crowdedMain 4).frameFits _ {} id (by decide +kernel)),
    exhausted_of_check (by decide +kernel)⟩

end Nasm64
