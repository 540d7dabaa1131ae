import Nasm64.Proofs.Lower.Invocation

/-! Code that uses the machine stack in brackets: what is pushed is popped again, and the argument
area of a call is given back. Everything said about emitted code as a whole follows from this
shape. -/
namespace Nasm64

/-- The families that code computes with. The other two delimit the frame. -/
def Family.isOrdinary : Family → Bool
  | rsp | rbp => false
  | _ => true

theorem Family.isOrdinary_of_isVolatile {fam : Family} (overwritten : fam.isVolatile = true) :
    fam.isOrdinary = true := by
  cases fam <;> first | rfl | cases overwritten

def Mnemonic.isUnaryComputation : Mnemonic → Bool
  | neg | not | mul | idiv | div => true
  | sete | setne | setl | setle | setg | setge | setb | setbe | seta | setae => true
  | _ => false

/-- The instructions that only set the flags. -/
def Mnemonic.isTest : Mnemonic → Bool
  | cmp | test | comiss | comisd => true
  | _ => false

def Mnemonic.isMove : Mnemonic → Bool
  | mov | movss | movsd => true
  | _ => false

namespace Line

def writes : Line → List Family
  | plain .cqo | plain .cdq => [.rdx]
  | unary .mul _ | unary .idiv _ | unary .div _ => [.rax, .rdx]
  | unary _ (.reg register) => [register.family]
  | binary .xchg (.reg first) (.reg second) => [first.family, second.family]
  | binary .xchg _ (.reg second) => [second.family]
  | binary mnemonic (.reg target) _ => if mnemonic.isTest then [] else [target.family]
  | _ => []

/-- Lines that leave the machine stack and the flow of control alone. They write ordinary registers
or a frame slot. -/
def isQuiet : Line → Bool
  | plain mnemonic => mnemonic == .cqo || mnemonic == .cdq
  | unary mnemonic (.reg register) => mnemonic.isUnaryComputation && register.family.isOrdinary
  | binary .xchg (.reg first) source =>
    match source with
    | .reg second => first.family.isOrdinary && second.family.isOrdinary
    | _ => false
  | binary _ (.reg target) _ => target.family.isOrdinary
  | binary mnemonic (.mem size ⟨.reg ⟨.rbp, 8⟩, _, none⟩) (.reg _) =>
    mnemonic.isMove && 0 ≤ size && size ≤ 8
  | _ => false

end Line

namespace Lower

/-- The most that the argument area of a call can take. -/
def Env.areaBound (env : Env) (count : Nat) : Nat :=
  max (8 * count) env.shadowSpace.toInt.toNat + env.stackAlignment.toInt.toNat

/-- An argument area: how deep the stack was outside, and the number of its slots. -/
structure Area where
  depth : Int64
  count : Nat

/-- Code at a depth of the machine stack, perhaps directly inside an argument area. `weight` bounds
the bytes that it takes from the stack, and it changes no family but those in `changes`. -/
inductive Bracketed (env : Env) :
    Int64 → Option Area → Nat → (Family → Prop) → Code → Prop
  | nil {depth : Int64} {area : Option Area} {weight : Nat} {changes : Family → Prop} :
    Bracketed env depth area weight changes []
  | line {depth : Int64} {area : Option Area} {weight : Nat} {changes : Family → Prop} {line : Line}
    (quiet : line.isQuiet = true) (writes : ∀ family ∈ line.writes, changes family) :
    Bracketed env depth area weight changes [line]
  | append {depth : Int64} {area : Option Area} {weight : Nat} {changes : Family → Prop}
    {first second : Code} (before : Bracketed env depth area weight changes first)
    (after : Bracketed env depth area weight changes second) :
    Bracketed env depth area weight changes (first ++ second)
  | saved {depth : Int64} {area : Option Area} {weight inner : Nat} {changes : Family → Prop}
    {register : Register} {body : Code} (ordinary : register.family.isOrdinary = true)
    (fits : inner + 8 ≤ weight)
    (inside : Bracketed env (depth + 8) none inner
      (fun family => changes family ∨ family = register.family) body) :
    Bracketed env depth area weight changes (pushCode register ++ body ++ popCode register)
  | moved {depth : Int64} {area : Option Area} {weight : Nat} {changes : Family → Prop}
    {source target : Register} (ordinary : target.family.isOrdinary = true)
    (alike : source.isFloat = target.isFloat) (fits : 8 ≤ weight) (changed : changes target.family) :
    Bracketed env depth area weight changes (pushCode source ++ popCode target)
  | reserved {depth : Int64} {area : Option Area} {weight inner count : Nat}
    {changes : Family → Prop} {body : Code} {label : String}
    (fits : inner + env.areaBound count ≤ weight) (calls : .call label ∈ body)
    (inside : Bracketed env (depth + env.areaAt depth count) (some ⟨depth, count⟩) inner changes
      body) :
    Bracketed env depth area weight changes (reservedCode (env.areaAt depth count) body)
  | staged {depth : Int64} {area : Area} {weight index : Nat} {changes : Family → Prop}
    {mnemonic : Mnemonic} {size : Int} {source : Register} (moves : mnemonic.isMove = true)
    (narrow : 0 ≤ size ∧ size ≤ 8) (slot : index < area.count) :
    Bracketed env depth (some area) weight changes
      [.binary mnemonic (.mem size (argumentSlot index)) (.reg source)]
  | call {area : Area} {weight : Nat} {changes : Family → Prop} {label : String}
    (overwrites : ∀ family, family.isVolatile = true → changes family) :
    Bracketed env (area.depth + env.areaAt area.depth area.count) (some area) weight changes
      [.call label]

namespace Bracketed

variable {env : Env} {depth : Int64} {area : Option Area} {weight : Nat} {changes : Family → Prop}
  {code : Code}

theorem mono (bracketed : Bracketed env depth area weight changes code) (heavier : weight ≤ more)
    (includes : ∀ fam, changes fam → wider fam) : Bracketed env depth area more wider code := by
  induction bracketed generalizing more wider with
  | nil => exact .nil
  | line quiet writes => exact .line quiet fun fam mem => includes _ (writes fam mem)
  | append _ _ before after => exact .append (before heavier includes) (after heavier includes)
  | saved ord fits _ inside =>
    refine .saved ord (Nat.le_trans fits heavier) (inside (Nat.le_refl _) ?_)
    rintro fam (changed | same)
    · exact .inl (includes _ changed)
    · exact .inr same
  | moved ord alike fits changed =>
    exact .moved ord alike (Nat.le_trans fits heavier) (includes _ changed)
  | reserved fits calls _ inside =>
    exact .reserved (Nat.le_trans fits heavier) calls (inside (Nat.le_refl _) includes)
  | staged moves narrow slot => exact .staged moves narrow slot
  | call overwrites => exact .call fun fam volatile => includes _ (overwrites fam volatile)

theorem inArea (bracketed : Bracketed env depth none weight changes code) (area : Option Area) :
    Bracketed env depth area weight changes code := by
  generalize outside : (none : Option Area) = place at bracketed
  induction bracketed with
  | nil => exact .nil
  | line quiet writes => exact .line quiet writes
  | append _ _ before after => exact .append (before outside) (after outside)
  | saved ord fits inside _ => exact .saved ord fits inside
  | moved ord alike fits changed => exact .moved ord alike fits changed
  | reserved fits calls inside _ => exact .reserved fits calls inside
  | staged => cases outside
  | call => cases outside

theorem savedAll (ord : ∀ r ∈ registers, r.family.isOrdinary = true)
    (fits : nested + 8 * registers.length ≤ weight)
    (inside : Bracketed env (depth + Int64.ofNat (8 * registers.length)) none nested (fun fam =>
      changes fam ∨ ∃ r ∈ registers, fam = r.family) code) :
    Bracketed env depth none weight changes (saveCode registers ++ code ++
      restoreCode registers) := by
  induction registers generalizing depth weight changes with
  | nil =>
    have flat : depth + Int64.ofNat (8 * ([] : List Register).length) = depth := Int64.add_zero depth
    rw [flat] at inside
    have same : Bracketed env depth none weight changes code :=
      inside.mono (by simpa using fits) (by simp)
    simpa [saveCode, restoreCode] using same
  | cons r rest ih =>
    have shape : saveCode (r :: rest) ++ code ++ restoreCode (r :: rest) =
        pushCode r ++ (saveCode rest ++ code ++ restoreCode rest) ++ popCode r := by
      simp [saveCode, restoreCode]
    have deeper : depth + Int64.ofNat (8 * (r :: rest).length) =
        depth + 8 + Int64.ofNat (8 * rest.length) := by
      rw [List.length_cons, Nat.mul_add, Nat.add_comm, Int64.ofNat_add, ← Int64.add_assoc]
      rfl
    rw [shape]
    rw [deeper] at inside
    simp only [List.length_cons] at fits
    refine .saved (ord r (by simp)) (by omega) (ih (fun other mem =>
      ord other (by simp [mem])) (Nat.le_refl _) (inside.mono (Nat.le_refl _) ?_))
    rintro fam (changed | ⟨other, mem, same⟩)
    · exact .inl (.inl changed)
    · rcases List.mem_cons.mp mem with rfl | mem
      · exact .inl (.inr same)
      · exact .inr ⟨other, mem, same⟩

end Bracketed
end Lower
end Nasm64
