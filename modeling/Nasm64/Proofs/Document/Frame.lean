import Nasm64.Proofs.Document.Program

/-! The size of the frame of a method. It is computed by doubling once the body is lowered, and this is
the only computation that may have no end: a document may declare variables of more than `2 ^ 62` bytes. -/
namespace Nasm64

open Lower

namespace Method

/-- All that lowering does before it computes the size of the frame. -/
def lowerUnsized (method : Method) : Lower (Code × List SavedSlot) := do
  if method.result.isStruct || method.result.isArray then
    fail method.position (.resultByValue method.name method.result.text)
  else
    let body ← method.lowerBody
    let saved ← reserveSaved
    warnUnused
    return (body, saved)

theorem lower_eq (method : Method) : method.lower = do
    let lowered ← method.lowerUnsized
    let env ← read
    match frameSize? (← get).position env.shadowSpace env.stackAlignment with
    | none => throw (.fault .endlessFrame)
    | some size =>
      return surround env.signature.label env.resultLabel size lowered.2 lowered.1 := by
  unfold lower lowerUnsized
  split
  · rfl
  · rw [bind_assoc]
    refine bind_congr fun body => ?_
    rw [bind_assoc]
    refine bind_congr fun saved => ?_
    rw [bind_assoc]
    exact bind_congr fun _ => (pure_bind _ _).symm

section

variable {method : Method} {code : Code} (reached : Yields method.lowerUnsized env {} (code, saved) frame)

include reached

theorem lower_of_unsized : method.lower env {} =
    match frameSize? frame.position env.shadowSpace env.stackAlignment with
    | none => .error (.fault .endlessFrame)
    | some size => .ok (surround env.signature.label env.resultLabel size saved code, frame) := by
  have inspected : Yields read env frame env frame := yields_read.mpr ⟨rfl, rfl⟩
  have got : Yields get env frame frame frame := yields_get.mpr ⟨rfl, rfl⟩
  rw [lower_eq, reached.bind_eq, inspected.bind_eq, got.bind_eq]
  cases frameSize? frame.position env.shadowSpace env.stackAlignment <;> rfl

theorem lower_of_endless (endless : Word.Endless (frame.position + env.shadowSpace)) :
    method.lower env {} = .error (.fault .endlessFrame) := by
  rw [lower_of_unsized reached, frameSize?, Word.nextPowerOfTwo?_eq_none_iff.mpr endless]
  rfl

theorem lower_of_endsAt (ends : Word.EndsAt (frame.position + env.shadowSpace) power) :
    method.lower env {} = .ok (surround env.signature.label env.resultLabel
      (Word.alignUp power env.stackAlignment) saved code, frame) := by
  rw [lower_of_unsized reached, frameSize?, Word.nextPowerOfTwo?_eq_some_iff.mpr ends]
  rfl

end

end Method

/-- Let a method come to the computation of its frame, with the position that its slots reach. Doubling
ends if and only if position and home area together are at most `2 ^ 62`, and then the code is that of
the method in a frame of the least power of two that is no less, rounded up to the alignment. If it does
not end, there is no answer. -/
theorem frame_doubling_ends {method : Method} {settings : Settings} {table : SymbolTable} {index : Nat}
    {body : Code} {saved : List SavedSlot} {frame : Frame}
    (reached : Yields method.lowerUnsized ⟨index, method.signature, table, some settings⟩ {}
      (body, saved) frame) :
    let bound := frame.position + settings.shadowSpace
    (Word.Endless bound ↔ 2 ^ 62 < bound.toInt) ∧
    (Word.Endless bound → method.generate table settings index = .error (.fault .endlessFrame)) ∧
    (¬ Word.Endless bound → ∃ power, Word.EndsAt bound power ∧
      IsLeast {number : Int | bound.toInt ≤ number ∧ ∃ exponent : Nat, number = 2 ^ exponent} power.toInt ∧
      method.generate table settings index =
        .ok ⟨surround method.signature.label
          (Env.resultLabel ⟨index, method.signature, table, some settings⟩)
          (Word.alignUp power settings.stackAlignment) saved body, frame.data, frame.warnings⟩) := by
  refine ⟨Word.endless_iff, fun endless => ?_, fun ends => ?_⟩
  · show (method.lower _ {}).bind _ = _
    rw [Method.lower_of_endless reached endless]
    rfl
  · obtain ⟨power, found⟩ := Word.exists_endsAt ends
    refine ⟨power, found, found.isLeast, ?_⟩
    show (method.lower _ {}).bind _ = _
    rw [Method.lower_of_endsAt reached found]
    rfl

namespace Document

/-- A program of one method, which declares so many bytes. -/
def bytesLetters (count : String) : List Char :=
  object [("methods", objects [[("name", quoted "main"),
    ("body", objects [[("kind", quoted "let"), ("name", quoted "a"), ("type", quoted ("[" ++ count ++ "]u8"))]])]])]

/-- Tests where the slots of the first method of a program end. -/
def endsWhere (test : Int64 → Bool) (program : Program) : Bool :=
  match program.methods with
  | [] => false
  | method :: _ =>
    check (do let _ ← method.lowerUnsized; return (← get).position)
      ⟨0, method.signature, ⟨program.methods.map Method.signature⟩, some {}⟩ {} test

theorem exists_unsized (ends : (read text).toOption.any (endsWhere test) = true) :
    ∃ program method table body saved frame, read text = .ok program ∧ method ∈ program.methods ∧
      Yields (Method.lowerUnsized method) ⟨0, method.signature, table, some {}⟩ {} (body, saved) frame ∧
      test frame.position = true := by
  cases decoded : read text with
  | error error =>
    rw [decoded] at ends
    cases ends
  | ok program =>
    rw [decoded] at ends
    change endsWhere test program = true at ends
    unfold endsWhere at ends
    split at ends
    · cases ends
    · next method rest listed =>
      obtain ⟨position, next, ran, passes⟩ := Yields.of_check _ _ _ _ ends
      obtain ⟨⟨body, saved⟩, frame, reached, ran⟩ := yields_bind.mp ran
      obtain ⟨_, _, got, ran⟩ := yields_bind.mp ran
      obtain ⟨rfl, rfl⟩ := yields_get.mp got
      obtain ⟨rfl, rfl⟩ := yields_pure.mp ran
      exact ⟨program, method, _, body, saved, _, rfl, listed ▸ List.mem_cons_self, reached, passes⟩

/-- The slots end where the bytes do, with or without a frame for them. -/
theorem bytesLetters_ends :
    (read (String.ofList (bytesLetters "4611686018427387872"))).toOption.any
      (endsWhere (· == 4611686018427387872)) = true ∧
    (read (String.ofList (bytesLetters "4611686018427387873"))).toOption.any
      (endsWhere (· == 4611686018427387873)) = true := by
  constructor <;>
    (rw [read, Json.read, String.toList_ofList]
     decide +kernel)

end Document

/-- The largest variable whose frame is found: the home area fills what is left of `2 ^ 62`. -/
theorem frame_doubling_ends_largest :
    ∃ program method table body saved frame,
      Document.read (String.ofList (Document.bytesLetters "4611686018427387872")) = .ok program ∧
      method ∈ program.methods ∧
      Yields (Method.lowerUnsized method) ⟨0, method.signature, table, some {}⟩ {} (body, saved) frame ∧
      ∃ power, Word.EndsAt (frame.position + 32) power ∧ power.toInt = 2 ^ 62 ∧
        method.generate table {} 0 = .ok ⟨surround method.signature.label ".L0_ret" (Word.alignUp power 16)
          saved body, frame.data, frame.warnings⟩ := by
  obtain ⟨program, method, table, body, saved, frame, decoded, listed, reached, passes⟩ :=
    Document.exists_unsized Document.bytesLetters_ends.1
  obtain ⟨endless, _, found⟩ := frame_doubling_ends reached
  have position : frame.position = 4611686018427387872 := eq_of_beq passes
  rw [position] at endless found
  obtain ⟨power, found, least, generated⟩ := found (mt endless.mp (by decide))
  refine ⟨program, method, table, body, saved, frame, decoded, listed, reached, power, position ▸ found,
    ?_, generated⟩
  have above := least.1.1
  have below := least.2 (show (2 ^ 62 : Int) ∈ _ from ⟨by decide, 62, rfl⟩)
  exact Int.le_antisymm below (by simpa using above)

/-- With one byte more there is no end. -/
theorem frame_doubling_endless :
    ∃ program method table body saved frame,
      Document.read (String.ofList (Document.bytesLetters "4611686018427387873")) = .ok program ∧
      method ∈ program.methods ∧
      Yields (Method.lowerUnsized method) ⟨0, method.signature, table, some {}⟩ {} (body, saved) frame ∧
      Word.Endless (frame.position + 32) := by
  obtain ⟨program, method, table, body, saved, frame, decoded, listed, reached, passes⟩ :=
    Document.exists_unsized Document.bytesLetters_ends.2
  refine ⟨program, method, table, body, saved, frame, decoded, listed, reached, ?_⟩
  rw [eq_of_beq passes]
  exact Word.endless_iff.mpr (by decide)

end Nasm64
