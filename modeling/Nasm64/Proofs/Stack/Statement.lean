import Nasm64.Lower.Method
import Nasm64.Proofs.Account.Expr
import Nasm64.Proofs.Stack.Displacement

/-! Statements leave the registers held, the depth of the stack and the count of saved registers as
they were, and their code is made of bracketed code and lines that leave the stack alone. What it
changes is accounted for. -/
namespace Nasm64

namespace Code

/-- Code that comes back to where it started, never rises above it, is there at every mark, and has
the stack aligned at every call. `base` is the displacement at the start. -/
structure Disciplined (alignment base : Int) (code : Code) : Prop where
  returns : displacement? code = some 0
  along : Along (fun displacement line => 0 ≤ displacement ∧
    (line.isMark = true → displacement = 0) ∧
    (line.isCall = true → alignment ∣ base + displacement)) code

variable {alignment base : Int} {first second code : Code}

theorem Disciplined.append (before : Disciplined alignment base first)
    (after : Disciplined alignment base second) : Disciplined alignment base (first ++ second) :=
  ⟨displacement?_append before.returns after.returns,
    before.along.append before.returns (by simpa using after.along)⟩

theorem Level.disciplined (level : Level alignment base code) : Disciplined alignment base code :=
  ⟨level.returns, level.along.mono fun _ line ⟨above, unmarked, aligned⟩ =>
    ⟨above, by simp [unmarked], aligned⟩⟩

end Code

namespace Lower

inductive Settled (env : Env) (depth : Int64) (weight : Nat) : Code → Prop
  | bracketed {changes : Family → Prop} {code : Code}
    (bracketed : Bracketed env depth none weight changes code) : Settled env depth weight code
  | line {line : Line} (still : line.displacement? = some 0) (silent : line.isCall = false) :
    Settled env depth weight [line]
  | append {first second : Code} (before : Settled env depth weight first)
    (after : Settled env depth weight second) : Settled env depth weight (first ++ second)

variable {env : Env} {depth : Int64} {weight : Nat} {code : Code}

namespace Settled

theorem nil : Settled env depth weight [] := by
  have nothing : Bracketed env depth none weight (fun _ => False) [] := .nil
  exact .bracketed nothing

theorem lines (still : ∀ line ∈ code, line.displacement? = some 0 ∧ line.isCall = false) :
    Settled env depth weight code := by
  induction code with
  | nil => exact .nil
  | cons line rest ih =>
    have head : Settled env depth weight [line] :=
      .line (still line (by simp)).1 (still line (by simp)).2
    exact head.append (ih fun other mem => still other (by simp [mem]))

theorem disciplined (settled : Settled env depth weight code)
    (positive : 0 < env.stackAlignment.toInt) (natural : 0 ≤ depth.toInt)
    (room : depth.toInt + weight < 2 ^ 63) :
    code.Disciplined env.stackAlignment.toInt depth.toInt := by
  induction settled with
  | bracketed bracketed => exact (bracketed.level positive natural room (by simp)).disciplined
  | line still silent =>
    exact ⟨by simp [Code.displacement?, still], .singleton ⟨by omega, fun _ => rfl, by simp [silent]⟩⟩
  | append _ _ before after => exact before.append after

end Settled

namespace Frame

/-- The registers held and the depth of the stack are as before, and as many registers were saved
as restored. -/
structure Steady (frame next : Frame) : Prop where
  held : next.held = frame.held
  depth : next.depth = frame.depth
  balance : next.pushes + frame.pops = next.pops + frame.pushes

/-- A run that gives the code of a statement. -/
structure Settles (frame : Frame) (env : Env) (weight : Nat) (code : Code) (next : Frame) : Prop where
  steady : frame.Steady next
  settled : Settled env frame.depth weight code

variable {frame middle next : Frame} {first second : Code}

theorem Steady.refl (frame : Frame) : frame.Steady frame := ⟨rfl, rfl, Nat.add_comm _ _⟩

theorem Steady.trans (before : frame.Steady middle) (after : middle.Steady next) :
    frame.Steady next where
  held := after.held.trans before.held
  depth := after.depth.trans before.depth
  balance := by
    have := before.balance
    have := after.balance
    omega

theorem Kept.steady (kept : frame.Kept next) : frame.Steady next :=
  ⟨kept.held, kept.depth, kept.balance⟩

theorem Ordinary.steady (ord : frame.Ordinary) (steady : frame.Steady next) : next.Ordinary := by
  intro r mem
  rw [steady.held] at mem
  exact ord r mem

theorem Settles.append (before : frame.Settles env weight first middle)
    (after : middle.Settles env weight second next) :
    frame.Settles env weight (first ++ second) next :=
  ⟨before.steady.trans after.steady, before.settled.append (before.steady.depth ▸ after.settled)⟩

structure Calm (frame next : Frame) : Prop extends frame.Steady next where
  labels : next.labels = frame.labels

structure Rests (frame next : Frame) : Prop extends frame.Calm next where
  touched : next.touched = frame.touched

/-- A run that gives the code of a simple statement: no labels are made, and there are no labels,
jumps and comments in it. -/
structure Performs (frame : Frame) (env : Env) (weight : Nat) (code : Code) (next : Frame) : Prop
    extends frame.Settles env weight code next where
  labels : next.labels = frame.labels
  unmarked : ∀ line ∈ code, line.isMark = false

structure Acts (frame : Frame) (env : Env) (weight : Nat) (code : Code) (next : Frame) : Prop
    extends frame.Performs env weight code next where
  accounts : ∃ calls, Accounts frame.touched [] calls code next.touched

end Frame

/-- A line that leaves the stack alone, calls nothing and changes nothing that the caller relies
on. The next one runs after it. -/
structure Still (line : Line) : Prop where
  displacement : line.displacement? = some 0
  callee : line.callee? = none
  straight : line.isStraight = true
  free : ∀ family ∈ line.writes, family.isCalleeSaved = false

theorem Still.unmarked (still : Still line) : line.isMark = false := by
  have straight := still.straight
  unfold Line.isMark
  split <;> first | rfl | cases straight

theorem Still.silent (still : Still line) : line.isCall = false := by
  have callee := still.callee
  unfold Line.isCall
  split
  · cases callee
  · rfl

namespace Frame.Acts

variable {frame middle next : Frame} {first second : Code}

theorem nil (frame : Frame) : frame.Acts env weight [] frame :=
  ⟨⟨⟨.refl _, .nil⟩, rfl, by simp⟩, [], .nil (.refl _)⟩

theorem append (before : frame.Acts env weight first middle)
    (after : middle.Acts env weight second next) :
    frame.Acts env weight (first ++ second) next where
  toSettles := before.toSettles.append after.toSettles
  labels := after.labels.trans before.labels
  unmarked := List.forall_mem_append.mpr ⟨before.unmarked, after.unmarked⟩
  accounts := by
    obtain ⟨_, ahead⟩ := before.accounts
    obtain ⟨_, behind⟩ := after.accounts
    exact ⟨_, ahead.append behind⟩

theorem lines (before : frame.Acts env weight first next) (still : ∀ line ∈ second, Still line) :
    frame.Acts env weight (first ++ second) next where
  steady := before.steady
  settled := before.settled.append (.lines fun line mem =>
    ⟨(still line mem).displacement, (still line mem).silent⟩)
  labels := before.labels
  unmarked := List.forall_mem_append.mpr
    ⟨before.unmarked, fun line mem => (still line mem).unmarked⟩
  accounts := by
    obtain ⟨_, ahead⟩ := before.accounts
    refine ⟨_, ahead.ending fun line mem => ?_⟩
    obtain ⟨_, callee, straight, free⟩ := still line mem
    exact ⟨callee, straight, fun fam written => .of_not_saved (free fam written)⟩

theorem of_still (still : ∀ line ∈ code, Still line) : frame.Acts env weight code frame :=
  (nil frame).lines still

theorem of_rests (before : frame.Rests middle) (acts : middle.Acts env weight code next) :
    frame.Acts env weight code next := by
  have resting : frame.Acts env weight [] middle :=
    ⟨⟨⟨before.toSteady, .nil⟩, before.labels, by simp⟩, [], .nil (.of_eq before.touched)⟩
  exact resting.append acts

theorem then_rests (acts : frame.Acts env weight code middle) (after : middle.Rests next) :
    frame.Acts env weight code next := by
  have whole := acts.append (.of_rests after (.nil next))
  rwa [List.append_nil] at whole

theorem drop (acts : frame.Acts env weight code next) (count : Nat) :
    Acts { frame with held := frame.held.drop count } env weight code
      { next with held := next.held.drop count } where
  steady := ⟨congrArg (List.drop count) acts.steady.held, acts.steady.depth, acts.steady.balance⟩
  settled := acts.settled
  labels := acts.labels
  unmarked := acts.unmarked
  accounts := acts.accounts

end Frame.Acts

section

variable {tgt source : Address} {size : Int64}

theorem store_still {size : Int} {source : Register} :
    ∀ line ∈ store (.mem size tgt) source, Still line := by
  intro line mem
  obtain ⟨callee, straight, free⟩ := store_callFree size tgt source line mem
  refine ⟨?_, callee, straight, free⟩
  unfold store at mem
  split at mem
  · obtain rfl := List.mem_singleton.mp mem
    refine displacement?_binary (by simp) fun r exchanges => ?_
    exact absurd exchanges (floatMove_ne_xchg _)
  · obtain rfl := List.mem_singleton.mp mem
    exact displacement?_binary (by simp) (by simp)

theorem copyBytes_still : ∀ line ∈ copyBytes tgt source size, Still line := by
  intro line mem
  obtain ⟨⟨start, unit⟩, _, listed⟩ := List.mem_flatMap.mp mem
  simp only [List.mem_cons, List.not_mem_nil, or_false] at listed
  rcases listed with rfl | rfl
  · refine ⟨displacement?_binary ?_ (by simp), rfl, rfl, ?_⟩
    · rintro _ ⟨⟩
      simp
    · rintro fam (_ | ⟨_, ⟨⟩⟩)
      rfl
  · exact ⟨displacement?_binary (by simp) (by simp), rfl, rfl, nofun⟩

theorem zeroBytes_still : ∀ line ∈ zeroBytes tgt size, Still line := by
  intro line mem
  obtain ⟨⟨start, unit⟩, _, rfl, rfl⟩ := List.mem_map.mp mem
  exact ⟨displacement?_binary (by simp) (by simp), rfl, rfl, nofun⟩

theorem storeConstant?_still (found : storeConstant? v ty tgt = some code) : ∀ line ∈ code,
    Still line := by
  unfold storeConstant? at found
  split at found
  · cases found
  · split at found
    · simp only at found
      split at found
      · cases found
        intro line mem
        obtain rfl := List.mem_singleton.mp mem
        exact ⟨displacement?_binary (by simp) (by simp), rfl, rfl, nofun⟩
      · cases found
    · cases found

end

end Lower
end Nasm64
