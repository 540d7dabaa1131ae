import Nasm64.Proofs.Stack.Area

/-! How lines move the stack pointer, and how bracketed code does. -/
namespace Nasm64

open Line Code

namespace Line

/-- The bytes by which a line moves the stack pointer down. There is no answer for lines that set it
in another way. -/
def displacement? (line : Line) : Option Int :=
  match line with
  | plain mnemonic => if mnemonic = .leave ∨ mnemonic = .ret then none else some 0
  | unary mnemonic _ =>
    if mnemonic = .push then some 8
    else if .rsp ∈ line.writes then none
    else if mnemonic = .pop then some (-8)
    else some 0
  | binary mnemonic target source =>
    if target = .reg .stackPointer then
      match mnemonic, source with
      | .sub, .imm bytes => some bytes.toInt
      | .add, .imm bytes => some (-bytes.toInt)
      | _, _ => none
    else if .rsp ∈ line.writes then none
    else some 0
  | label _ | comment _ => some 0

def isCall : Line → Bool
  | unary .call _ => true
  | _ => false

/-- Labels, jumps and comments: the lines between which statements stand. -/
def isMark : Line → Bool
  | label _ | comment _ | unary .jmp _ | unary .je _ => true
  | _ => false

end Line

namespace Code

/-- The bytes by which code moves the stack pointer down in all. -/
def displacement? : Code → Option Int
  | [] => some 0
  | line :: rest =>
    match line.displacement?, displacement? rest with
    | some first, some others => some (first + others)
    | _, _ => none

/-- Every line is reached at some displacement, counted from the one at the start, that stands in a
relation to it. -/
def Along (relation : Int → Line → Prop) (code : Code) : Prop :=
  ∀ before line after, code = before ++ line :: after →
    ∃ displacement, displacement? before = some displacement ∧ relation displacement line

variable {relation : Int → Line → Prop} {first second code : Code}

theorem displacement?_append (before : displacement? first = some left)
    (after : displacement? second = some right) :
    displacement? (first ++ second) = some (left + right) := by
  induction first generalizing left with
  | nil =>
    cases before
    simpa using after
  | cons line rest ih =>
    simp only [displacement?] at before
    split at before
    · rename_i step others stepping moving
      cases before
      simp only [List.cons_append, displacement?, stepping, ih moving, Int.add_assoc]
    · cases before

theorem Along.append (before : Along relation first) (moves : displacement? first = some left)
    (after : Along (fun disp => relation (left + disp)) second) :
    Along relation (first ++ second) := by
  intro start line rest split
  rcases List.append_eq_append_iff.mp split with ⟨more, rfl, rest'⟩ | ⟨more, rfl, rest'⟩
  · obtain ⟨disp, found, related⟩ := after more line rest rest'
    exact ⟨left + disp, displacement?_append moves found, related⟩
  · cases more with
    | nil =>
      obtain ⟨disp, found, related⟩ := after [] line rest (by simpa using rest'.symm)
      cases found
      refine ⟨left, by simpa using moves, by simpa using related⟩
    | cons head tail =>
      simp only [List.cons_append, List.cons.injEq] at rest'
      obtain ⟨rfl, rfl⟩ := rest'
      exact before start line tail rfl

theorem Along.mono (along : Along relation code)
    (implies : ∀ disp line, relation disp line → wider disp line) : Along wider code := by
  intro before line after split
  obtain ⟨disp, found, related⟩ := along before line after split
  exact ⟨disp, found, implies _ _ related⟩

theorem Along.nil : Along relation [] := by
  intro before line after split
  simp at split

theorem Along.singleton (related : relation 0 line) : Along relation [line] := by
  intro before other after split
  cases before with
  | nil =>
    cases split
    exact ⟨0, rfl, related⟩
  | cons head tail => simp at split

/-- Lines of bracketed code: none is a mark, the stack pointer is never above its start, and it is
aligned at calls. `base` is the displacement at the start. -/
def Within (alignment base : Int) (displacement : Int) (line : Line) : Prop :=
  0 ≤ displacement ∧ line.isMark = false ∧
    (line.isCall = true → alignment ∣ base + displacement)

structure Level (alignment base : Int) (code : Code) : Prop where
  returns : displacement? code = some 0
  along : Along (Within alignment base) code

namespace Level

variable {alignment base : Int}

theorem nil : Level alignment base [] := ⟨rfl, .nil⟩

theorem append (before : Level alignment base first) (after : Level alignment base second) :
    Level alignment base (first ++ second) :=
  ⟨displacement?_append before.returns after.returns,
    before.along.append before.returns (by simpa using after.along)⟩

theorem line {line : Line} (still : line.displacement? = some 0) (unmarked : line.isMark = false)
    (silent : line.isCall = false) : Level alignment base [line] :=
  ⟨by simp [displacement?, still], .singleton ⟨by omega, unmarked, by simp [silent]⟩⟩

theorem enclose (natural : 0 ≤ bytes) (lowers : displacement? opening = some bytes)
    (falling : Along (fun disp line => 0 ≤ disp ∧ line.isMark = false ∧
      line.isCall = false) opening)
    (body : Level alignment (base + bytes) code) (raises : displacement? closing = some (-bytes))
    (rising : Along (fun disp line => 0 ≤ bytes + disp ∧ line.isMark = false ∧
      line.isCall = false) closing) : Level alignment base (opening ++ code ++ closing) := by
  have inner : displacement? (opening ++ code) = some (bytes + 0) :=
    displacement?_append lowers body.returns
  refine ⟨by simpa [Int.add_right_neg] using displacement?_append inner raises,
    Along.append (Along.append ?_ lowers ?_) inner ?_⟩
  · exact falling.mono fun disp line ⟨above, unmarked, silent⟩ =>
      ⟨above, unmarked, by simp [silent]⟩
  · refine body.along.mono fun disp line ⟨above, unmarked, aligned⟩ =>
      ⟨by omega, unmarked, fun calls => ?_⟩
    rw [← Int.add_assoc]
    exact aligned calls
  · exact rising.mono fun disp line ⟨above, unmarked, silent⟩ =>
      ⟨by omega, unmarked, by simp [silent]⟩

end Level

end Code

namespace Lower

theorem ordinary_ne_stack {fam : Family} (ord : fam.isOrdinary = true) : fam ≠ .rsp := by
  rintro rfl
  cases ord

theorem displacement?_binary (aside : ∀ r, dst = .reg r → r.family ≠ .rsp)
    (exchanged : ∀ r, mn = .xchg → src = .reg r → r.family ≠ .rsp) :
    (binary mn dst src).displacement? = some 0 := by
  have kept : .rsp ∉ (binary mn dst src).writes := by
    intro mem
    unfold writes at mem
    split at mem
    all_goals try contradiction
    · rename_i first second same
      cases same
      simp only [List.mem_cons, List.not_mem_nil, or_false] at mem
      rcases mem with mem | mem
      · exact aside first rfl mem.symm
      · exact exchanged second rfl rfl mem.symm
    · rename_i second _ same
      cases same
      exact exchanged second rfl rfl (List.mem_singleton.mp mem).symm
    · rename_i r _ _ same
      cases same
      split at mem
      · cases mem
      · exact aside r rfl (List.mem_singleton.mp mem).symm
  have other : dst ≠ .reg .stackPointer := by
    rintro rfl
    exact aside _ rfl rfl
  simp only [Line.displacement?, if_neg other, if_neg kept]

theorem quiet_still {line : Line} (quiet : line.isQuiet = true) :
    line.displacement? = some 0 ∧ line.isMark = false ∧ line.isCall = false := by
  cases line with
  | plain mn =>
    simp only [isQuiet, Bool.or_eq_true, beq_iff_eq] at quiet
    rcases quiet with rfl | rfl <;> exact ⟨rfl, rfl, rfl⟩
  | unary mn opnd =>
    cases opnd with
    | reg r =>
      simp only [isQuiet, Bool.and_eq_true] at quiet
      have aside : .rsp ≠ r.family := (ordinary_ne_stack quiet.2).symm
      cases mn <;> simp_all [Mnemonic.isUnaryComputation, Line.displacement?, Line.writes,
        isMark, isCall]
    | _ => cases quiet
  | binary mn dst src =>
    refine ⟨displacement?_binary ?_ ?_, rfl, rfl⟩
    · rintro r rfl
      refine ordinary_ne_stack ?_
      by_cases exchanges : mn = .xchg
      · subst exchanges
        cases src <;> simp_all [isQuiet]
      · simpa [isQuiet, exchanges] using quiet
    · rintro r rfl rfl
      refine ordinary_ne_stack ?_
      unfold isQuiet at quiet
      split at quiet
      all_goals try contradiction
      · rename_i same
        cases same
        exact (Bool.and_eq_true _ _ |>.mp quiet).2
      · rename_i same
        cases same
        rename_i other
        exact (other rfl).elim
      · rename_i same
        cases same
        simp [Mnemonic.isMove] at quiet
  | label name => cases quiet
  | comment text => cases quiet

theorem pushCode_falls (r : Register) :
    displacement? (pushCode r) = some 8 ∧
      Along (fun disp line => 0 ≤ disp ∧ line.isMark = false ∧
        line.isCall = false) (pushCode r) := by
  unfold pushCode
  split
  · have down : displacement? [.binary .sub (.reg .stackPointer) (.imm 8)] = some 8 := rfl
    have store : displacement? [.binary .movsd (.mem 8 (.aboveStack 0)) (.reg r)] =
        some 0 := rfl
    exact ⟨displacement?_append down store, Along.append (.singleton ⟨by omega, rfl, rfl⟩)
      down (.singleton ⟨by omega, rfl, rfl⟩)⟩
  · exact ⟨rfl, .singleton ⟨by omega, rfl, rfl⟩⟩

theorem popCode_rises {r : Register} (ord : r.family.isOrdinary = true) :
    Code.displacement? (popCode r) = some (-8) ∧
      Along (fun disp line => 0 ≤ 8 + disp ∧ line.isMark = false ∧
        line.isCall = false) (popCode r) := by
  have aside := ordinary_ne_stack ord
  unfold popCode
  split
  · have load : Code.displacement? [.binary .movsd (.reg r) (.mem 8 (.aboveStack 0))] =
        some 0 := by
      have still : (binary .movsd (.reg r) (.mem 8 (.aboveStack 0))).displacement? =
          some 0 := displacement?_binary (by rintro _ ⟨⟩; exact aside) (by simp)
      simp [Code.displacement?, still]
    have up : Code.displacement? [.binary .add (.reg .stackPointer) (.imm 8)] = some (-8) := rfl
    exact ⟨Code.displacement?_append load up, Along.append (.singleton ⟨by omega, rfl, rfl⟩)
      load (.singleton ⟨by omega, rfl, rfl⟩)⟩
  · refine ⟨?_, .singleton ⟨by omega, rfl, rfl⟩⟩
    simp [Code.displacement?, Line.displacement?, writes, aside.symm]

/-- Bracketed code has no labels, jumps and comments. -/
theorem Bracketed.unmarked (bracketed : Bracketed env depth area weight changes code) :
    ∀ line ∈ code, line.isMark = false := by
  have pushes : ∀ r, ∀ line ∈ pushCode r, line.isMark = false := by
    intro r
    unfold pushCode
    split <;> simp [isMark]
  have pops : ∀ r, ∀ line ∈ popCode r, line.isMark = false := by
    intro r
    unfold popCode
    split <;> simp [isMark]
  induction bracketed with
  | nil => simp
  | line quiet _ => exact List.forall_mem_singleton.mpr (quiet_still quiet).2.1
  | append _ _ before after => exact List.forall_mem_append.mpr ⟨before, after⟩
  | saved _ _ _ inside =>
    exact List.forall_mem_append.mpr ⟨List.forall_mem_append.mpr ⟨pushes _, inside⟩, pops _⟩
  | moved => exact List.forall_mem_append.mpr ⟨pushes _, pops _⟩
  | reserved _ _ _ inside =>
    exact List.forall_mem_append.mpr ⟨List.forall_mem_append.mpr
      ⟨List.forall_mem_singleton.mpr rfl, inside⟩, List.forall_mem_singleton.mpr rfl⟩
  | staged | call => exact List.forall_mem_singleton.mpr rfl

/-- Bracketed code comes back to the depth it starts at and never rises above it, and the stack is
aligned at its calls, as long as it stays within the words. -/
theorem Bracketed.level {env : Env} {depth : Int64} {area : Option Area} {changes : Family → Prop}
    (bracketed : Bracketed env depth area weight changes code)
    (positive : 0 < env.stackAlignment.toInt) (natural : 0 ≤ depth.toInt)
    (room : depth.toInt + weight < 2 ^ 63)
    (aligned : area.isSome = true → env.stackAlignment.toInt ∣ depth.toInt) :
    Level env.stackAlignment.toInt depth.toInt code := by
  induction bracketed with
  | nil => exact .nil
  | line quiet _ =>
    obtain ⟨still, unmarked, silent⟩ := quiet_still quiet
    exact .line still unmarked silent
  | append _ _ before after => exact (before natural room aligned).append (after natural room aligned)
  | saved ord fits _ inside =>
    rename_i depth area weight inner changes r body _
    have deeper : (depth + 8).toInt = depth.toInt + 8 :=
      Word.toInt_add (by show -2 ^ 63 ≤ depth.toInt + 8; omega) (by show depth.toInt + 8 < 2 ^ 63; omega)
    obtain ⟨lowers, falling⟩ := pushCode_falls r
    obtain ⟨raises, rising⟩ := popCode_rises ord
    have body := inside (by omega) (by omega) (by simp)
    rw [deeper] at body
    exact .enclose (by omega) lowers falling body raises rising
  | moved ord alike fits _ =>
    rename_i src dst _
    obtain ⟨lowers, falling⟩ := pushCode_falls src
    obtain ⟨raises, rising⟩ := popCode_rises ord
    rw [← List.append_nil (pushCode src)]
    exact .enclose (by omega) lowers falling .nil raises rising
  | reserved fits _ _ inside =>
    rename_i depth area weight inner count changes body label _ _
    obtain ⟨slots, bound, deeper, multiple⟩ := areaAt_aligned positive natural
      (by omega : depth.toInt + env.areaBound count < 2 ^ 63)
    have body := inside (by omega) (by omega) (fun _ => deeper ▸ multiple)
    rw [deeper] at body
    refine .enclose (by omega) ?_ (.singleton ⟨by omega, rfl, rfl⟩) body ?_
      (.singleton ⟨by omega, rfl, rfl⟩)
    · simp [Code.displacement?, Line.displacement?, Register.stackPointer]
    · simp [Code.displacement?, Line.displacement?, Register.stackPointer]
  | staged moves _ _ =>
    refine .line (displacement?_binary (by simp) ?_) rfl rfl
    intro r exchanges
    subst exchanges
    cases moves
  | call _ =>
    refine ⟨rfl, .singleton ⟨by omega, rfl, fun _ => ?_⟩⟩
    simpa using aligned rfl

end Lower
end Nasm64
