import Nasm64.Proofs.Machine.Forward

/-! Blocks of memory, copied and cleared in units of at most eight bytes. Main statements: exactly the
bytes of the target change, and besides them only the register that a copy goes through. -/
namespace Nasm64

open Lower

/-- A byte of a word, the lowest being the first. -/
def Word.byte (word : BitVec 64) (index : Nat) : BitVec 8 := (word >>> (8 * index)).setWidth 8

theorem Word.getLsbD_byte :
    (byte word i).getLsbD bit = (decide (bit < 8) && word.getLsbD (8 * i + bit)) := by
  simp [byte]

theorem Word.byte_congr (inside : i < bytes) (same : low bytes word = low bytes other) :
    byte word i = byte other i := by
  refine BitVec.eq_of_getLsbD_eq fun bit small => ?_
  have equal := congrArg (fun word => word.getLsbD (8 * i + bit)) same
  rw [getLsbD_byte, getLsbD_byte]
  simpa [getLsbD_low, small, show 8 * i + bit < 8 * bytes by omega] using equal

namespace Memory

variable {memory : Memory} {base : BitVec 64} {start mid stop : Nat}
  {content other : Nat → BitVec 8}

theorem byte_load (inside : i < bytes) (small : bytes ≤ 8) :
    Word.byte (memory.load addr bytes) i = memory (addr + BitVec.ofNat 64 i) := by
  refine BitVec.eq_of_getLsbD_eq fun bit low => ?_
  rw [Word.getLsbD_byte, load_bit _ _ _ (by omega)]
  simp [low, show 8 * i + bit < 8 * bytes by omega, show (8 * i + bit) / 8 = i by omega,
    show (8 * i + bit) % 8 = bit by omega]

/-- Every byte has a place in a block that starts anywhere. -/
theorem place_eq (base byte : BitVec 64) : byte = base + BitVec.ofNat 64 (byte - base).toNat := by
  rw [BitVec.ofNat_toNat, BitVec.setWidth_eq, BitVec.add_comm, BitVec.sub_add_cancel]

def fill (memory : Memory) (base : BitVec 64) (start stop : Nat) (content : Nat → BitVec 8) : Memory :=
  fun byte =>
    if start ≤ (byte - base).toNat ∧ (byte - base).toNat < stop then content (byte - base).toNat
    else memory byte

theorem fill_nothing : memory.fill base start start content = memory := by
  funext byte
  exact if_neg (by omega)

theorem fill_apart (apart : ¬ (start ≤ (byte - base).toNat ∧ (byte - base).toNat < stop)) :
    memory.fill base start stop content byte = memory byte := if_neg apart

theorem fill_fill (first : start ≤ mid) (second : mid ≤ stop) :
    (memory.fill base start mid content).fill base mid stop content =
      memory.fill base start stop content := by
  funext byte
  grind [fill]

theorem fill_congr (same : ∀ place, start ≤ place → place < stop → content place = other place) :
    memory.fill base start stop content = memory.fill base start stop other := by
  funext byte
  simp only [fill]
  split
  · next inside => exact same _ inside.1 inside.2
  · rfl

theorem store_eq_fill (addr v : BitVec 64) (bytes : Nat) (fits : start + bytes ≤ 2 ^ 64)
    (placed : addr = base + BitVec.ofNat 64 start) (filled : 0 < bytes) :
    memory.store addr bytes v = memory.fill base start (start + bytes) fun place =>
      Word.byte v (place - start) := by
  subst placed
  funext byte
  have shifted : byte - (base + BitVec.ofNat 64 start) = byte - base - BitVec.ofNat 64 start := by
    grind
  have distance : (byte - (base + BitVec.ofNat 64 start)).toNat =
      (2 ^ 64 - start + (byte - base).toNat) % 2 ^ 64 := by
    have small : start % 2 ^ 64 = start := Nat.mod_eq_of_lt (by omega)
    rw [shifted, BitVec.toNat_sub, BitVec.toNat_ofNat, small]
  have bound := (byte - base).isLt
  simp only [store, fill, covers, distance, Word.byte]
  by_cases inside : start ≤ (byte - base).toNat ∧ (byte - base).toNat < start + bytes
  · rw [if_pos inside, if_pos (by omega),
      show (2 ^ 64 - start + (byte - base).toNat) % 2 ^ 64 = (byte - base).toNat - start by omega]
  · rw [if_neg inside, if_neg (by omega)]

theorem store_fill (addr v : BitVec 64) {bytes : Nat} (fits : stop ≤ 2 ^ 64)
    (placed : addr = base + BitVec.ofNat 64 mid) (filled : 0 < bytes)
    (within : mid + bytes ≤ stop) :
    (memory.fill base 0 stop content).store addr bytes v = memory.fill base 0 stop fun place =>
      if mid ≤ place ∧ place < mid + bytes then Word.byte v (place - mid) else content place := by
  rw [store_eq_fill addr v bytes (by omega) placed filled]
  funext byte
  grind [fill]

end Memory

/-- The registers that an address is computed from. -/
def Base.families : Base → List Family
  | reg register => [register.family]
  | slot _ => [.rbp]
  | label _ => []

def Address.families (address : Address) : List Family :=
  address.base.families ++ address.index.toList.map Register.family

namespace Lower

inductive Tiles : Nat → List (Nat × Nat) → Nat → Prop
  | nil {start : Nat} : Tiles start [] start
  | cons {start unit stop : Nat} {rest : List (Nat × Nat)}
    (width : unit = 1 ∨ unit = 2 ∨ unit = 4 ∨ unit = 8) (others : Tiles (start + unit) rest stop) :
    Tiles start ((start, unit) :: rest) stop

namespace Tiles

variable {start mid stop : Nat} {first second : List (Nat × Nat)}

theorem le (tiles : Tiles start first stop) : start ≤ stop := by
  induction tiles with
  | nil => exact Nat.le_refl _
  | cons _ _ ih => omega

end Tiles

/-- A unit that is cut off leaves the rest to be cut, and the last one ends where the bytes do. -/
theorem chunksFrom_tiles (inside : start ≤ size) : Tiles start (chunksFrom size start) size := by
  fun_induction chunksFrom size start with
  | case1 start more unit ih =>
    have fits : unit ≤ size - start ∧ (unit = 1 ∨ unit = 2 ∨ unit = 4 ∨ unit = 8) := by
      simp only [unit, chunk]
      split_ifs <;> omega
    exact .cons fits.2 (ih (by omega))
  | case2 start done =>
    obtain rfl : start = size := by omega
    exact .nil

theorem chunks_tiles (size : Int64) : Tiles 0 (chunks size) size.toInt.toNat :=
  chunksFrom_tiles (Nat.zero_le _)

end Lower

namespace Machine

/-- An instruction, among them those that write a constant to memory. -/
def performLine (world : World) (machine : Machine) : Line → Option Machine
  | .binary .mov (.mem size address) (.imm value) =>
    if Register.inPool false size && (Operand.imm value).encodable size then
      some { machine with
        memory := machine.memory.store (machine.address world address) size.toNat value.toBitVec }
    else none
  | line => step world machine line

def perform (world : World) (code : Code) (machine : Machine) : Option Machine :=
  code.foldlM (performLine world) machine

variable {w : World} {m next : Machine} {addr : Address}

theorem perform_append (first second : Code) :
    perform w (first ++ second) m = (perform w first m).bind (perform w second) := List.foldlM_append

theorem perform_cons {line : Line} {rest : Code} :
    perform w (line :: rest) m = (performLine w m line).bind (perform w rest) := List.foldlM_cons

theorem perform_line (first : performLine w m line = some mid)
    (others : perform w rest mid = some next) : perform w (line :: rest) m = some next := by
  rw [perform_cons, first]
  exact others

theorem performLine_of_step (stepped : step w m line = some next) :
    performLine w m line = some next := by
  unfold performLine
  split
  · cases stepped
  · exact stepped

section

variable (w) (m)

theorem performLine_store {r : Register} (working : r.Working false) (addr : Address) :
    performLine w m (.mov (.mem r.size addr) (.reg r)) = some { m with
      memory := m.memory.store (m.address w addr) r.size.toNat
        (m.reg r.family) } :=
  performLine_of_step (by simp [Line.mov, step, storeRegister, isStore, working.general])

theorem performLine_constant {size : Int} {v : Int64} (width : Register.inPool false size = true)
    (encodable : (Operand.imm v).encodable size = true) (addr : Address) :
    performLine w m (.mov (.mem size addr) (.imm v)) = some { m with
      memory := m.memory.store (m.address w addr) size.toNat v.toBitVec } := by
  simp [Line.mov, performLine, width, encodable]

theorem performLine_load (working : r.Working false) (found : m.read w r.size src = some v) :
    performLine w m (.mov (.reg r) src) =
      some (m.set r.family (Word.blend r.size.toNat (m.reg r.family) v)) :=
  performLine_of_step (step_general w m working (by decide) (general_mov w m found))

end

theorem address_same (same : ∀ fam ∈ addr.families, next.reg fam = m.reg fam) :
    next.address w addr = m.address w addr := by
  obtain ⟨base, disp, i⟩ := addr
  have started : next.start w base = m.start w base := by
    cases base with
    | reg r => exact same _ (by simp [Address.families, Base.families])
    | slot offset => simp only [start, same .rbp (by simp [Address.families, Base.families])]
    | label name => rfl
  have counted : ∀ r ∈ i, next.reg r.family = m.reg r.family :=
    fun r given => same _ (by simp [Address.families, Option.mem_def.mp given])
  unfold Machine.address
  cases i with
  | none => simp only [started, Option.elim]
  | some r => simp only [started, Option.elim, counted r rfl]

theorem set_self (fam : Family) : m.set fam (m.reg fam) = m := by
  have same : (fun other => if other = fam then m.reg fam else m.reg other) =
      m.reg := by
    funext other
    split
    · next equal => rw [equal]
    · rfl
  simp only [set, same]

theorem set_filled_set {fam : Family} {first second : BitVec 64} {memory : Memory} :
    ({ m.set fam first with memory } : Machine).set fam second =
      { m.set fam second with memory } := by
  simp only [set, mk.injEq, and_true]
  funext other
  split
  · rfl
  · next apart => rfl

variable {target src : Address} {base origin : BitVec 64} {start stop : Nat}
  {units : List (Nat × Nat)} {content : Nat → BitVec 8}

theorem inPool_unit {unit : Nat} (width : unit = 1 ∨ unit = 2 ∨ unit = 4 ∨ unit = 8) :
    Register.inPool false unit = true := by
  rcases width with rfl | rfl | rfl | rfl <;> rfl

theorem perform_clears (tiles : Tiles start units stop) (fits : stop ≤ 2 ^ 64) :
    perform w (units.map fun (start, unit) =>
      .mov (.mem unit (target.advance (Int64.ofNat start))) (.imm 0)) m =
      some { m with memory := m.memory.fill (m.address w target) start stop fun _ => 0 } := by
  induction tiles generalizing m with
  | nil =>
    rw [Memory.fill_nothing]
    rfl
  | @cons start unit stop rest width others ih =>
    have after := others.le
    have stored : m.memory.store (m.address w (target.advance (Int64.ofNat start)))
        (unit : Int).toNat (0 : Int64).toBitVec =
          m.memory.fill (m.address w target) start (start + unit) fun _ => 0 := by
      rw [Int.toNat_natCast, Memory.store_eq_fill _ _ _ (by omega) (address_advance target _) (by omega)]
      exact Memory.fill_congr fun place _ _ => by simp [Word.byte]
    rw [List.map_cons, perform_cons,
      performLine_constant _ _ (inPool_unit width) (by simp [Operand.encodable]), stored, Option.bind_some,
      ih fits, ← Memory.fill_fill (Nat.le_add_right start unit) after]
    rfl

def copyUnit (target source : Address) : Nat × Nat → Code := fun (start, unit) =>
  [.mov (.reg (Register.scratch.resize unit)) (.mem unit (source.advance (Int64.ofNat start))),
    .mov (.mem unit (target.advance (Int64.ofNat start))) (.reg (Register.scratch.resize unit))]

theorem perform_copyUnit (w : World) (m : Machine) (src : Address) {unit : Nat}
    (width : unit = 1 ∨ unit = 2 ∨ unit = 4 ∨ unit = 8) (fits : start + unit ≤ 2 ^ 64)
    (aside : .r11 ∉ target.families) :
    ∃ scratch, perform w (copyUnit target src (start, unit)) m =
      some { m.set .r11 scratch with
        memory := m.memory.fill (m.address w target) start (start + unit) fun place =>
          m.memory (m.address w src + BitVec.ofNat 64 place) } := by
  have working : (Register.scratch.resize unit).Working false := Register.scratch_working (by omega)
  have found : m.read w (Register.scratch.resize unit).size
      (.mem unit (src.advance (Int64.ofNat start))) =
        some (m.memory.load (m.address w src + BitVec.ofNat 64 start) unit) := by
    simp [read, fetch, address_advance]
  obtain ⟨v, blended⟩ : ∃ v, Word.blend unit (m.reg .r11)
    (m.memory.load (m.address w src + BitVec.ofNat 64 start) unit) = v := ⟨_, rfl⟩
  have low : Word.low unit v =
      m.memory.load (m.address w src + BitVec.ofNat 64 start) unit := by
    rw [← blended, Word.low_blend, Memory.low_load (Nat.le_refl unit)]
  have placed : (m.set .r11 v).address w target = m.address w target :=
    address_same fun fam reads => if_neg fun same : fam = .r11 => aside (same ▸ reads)
  have stored : (m.set .r11 v).memory.store ((m.set .r11 v).address w
      (target.advance (Int64.ofNat start))) unit v =
      m.memory.fill (m.address w target) start (start + unit) fun place =>
        m.memory (m.address w src + BitVec.ofNat 64 place) := by
    rw [Memory.store_eq_fill _ _ _ fits (address_advance target _) (by omega), placed]
    refine Memory.fill_congr fun place above below => ?_
    rw [Word.byte_congr (by omega) (low.trans (Memory.low_load (Nat.le_refl unit)).symm),
      Memory.byte_load (by omega) (by omega), BitVec.add_assoc, ← BitVec.ofNat_add,
      Nat.add_sub_cancel' above]
  have loaded : performLine w m (.mov (.reg (Register.scratch.resize unit))
      (.mem unit (src.advance (Int64.ofNat start)))) = some (m.set .r11 v) := by
    rw [← blended]
    exact performLine_load w m working found
  have written := performLine_store w (m.set .r11 v) working
    (target.advance (Int64.ofNat start))
  refine ⟨v, ?_⟩
  rw [← stored]
  exact perform_line loaded (perform_line written rfl)

/-- A block is copied from where it is. The bytes that are still to be copied are not yet overwritten,
since the two blocks are apart or the same. -/
theorem perform_copies (tiles : Tiles start units stop) (fits : stop ≤ 2 ^ 64)
    (aside : .r11 ∉ target.families ++ src.families)
    (parallel : ∀ here there, here < stop → there < stop →
      m.address w src + BitVec.ofNat 64 here = m.address w target + BitVec.ofNat 64 there →
      here = there)
    (kept : ∀ place, start ≤ place → place < stop →
      m.memory (m.address w src + BitVec.ofNat 64 place) = content place) :
    ∃ scratch, perform w (units.flatMap (copyUnit target src)) m =
      some { m.set .r11 scratch with
        memory := m.memory.fill (m.address w target) start stop content } := by
  induction tiles generalizing m with
  | nil =>
    refine ⟨m.reg .r11, ?_⟩
    rw [Memory.fill_nothing, set_self]
    rfl
  | @cons start unit stop rest width others ih =>
    have after := others.le
    rw [List.mem_append, not_or] at aside
    obtain ⟨first, moved⟩ := perform_copyUnit w m src width
      (by omega : start + unit ≤ 2 ^ 64) aside.1
    generalize reached : ({ m.set .r11 first with memory := _ } : Machine) = mid at moved
    have still : ∀ fam, fam ≠ .r11 → mid.reg fam = m.reg fam := by
      intro fam apart
      rw [← reached]
      exact if_neg apart
    have targets : mid.address w target = m.address w target :=
      address_same fun fam reads => still fam fun same => aside.1 (same ▸ reads)
    have sources : mid.address w src = m.address w src :=
      address_same fun fam reads => still fam fun same => aside.2 (same ▸ reads)
    have filled : mid.memory =
        m.memory.fill (m.address w target) start (start + unit) content := by
      rw [← reached]
      exact Memory.fill_congr fun place above below => kept place above (by omega)
    have remaining : ∀ place, start + unit ≤ place → place < stop →
        mid.memory (mid.address w src + BitVec.ofNat 64 place) = content place := by
      intro place above below
      rw [filled, sources, Memory.fill_apart, kept place (by omega) below]
      rintro ⟨_, copied⟩
      have meets := Memory.place_eq (m.address w target)
        (m.address w src + BitVec.ofNat 64 place)
      have same := parallel place _ below (by omega) meets
      omega
    obtain ⟨last, ran⟩ := ih fits (by rwa [targets, sources]) remaining
    refine ⟨last, ?_⟩
    rw [List.flatMap_cons, perform_append, moved, Option.bind_some, ran, targets, filled,
      Memory.fill_fill (by omega) after, ← reached, set_filled_set]

theorem perform_zeroBytes (w : World) (m : Machine) (target : Address) (size : Int64) :
    perform w (zeroBytes target size) m = some { m with
      memory := m.memory.fill (m.address w target) 0 size.toInt.toNat fun _ => 0 } := by
  have small := size.toInt_lt
  exact perform_clears (chunks_tiles size) (by omega)

/-- The code that copies a block, from another that is apart from it or the same. -/
theorem perform_copyBytes (w : World) (m : Machine) (target src : Address) (size : Int64)
    (aside : .r11 ∉ target.families ++ src.families)
    (parallel : ∀ here there, here < size.toInt.toNat → there < size.toInt.toNat →
      m.address w src + BitVec.ofNat 64 here =
        m.address w target + BitVec.ofNat 64 there → here = there) :
    ∃ scratch, perform w (copyBytes target src size) m =
      some { m.set .r11 scratch with
        memory := m.memory.fill (m.address w target) 0 size.toInt.toNat fun place =>
          m.memory (m.address w src + BitVec.ofNat 64 place) } := by
  have small := size.toInt_lt
  exact perform_copies (chunks_tiles size) (by omega) aside parallel fun _ _ _ => rfl

end Machine
end Nasm64
