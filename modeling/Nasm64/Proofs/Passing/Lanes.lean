import Nasm64.Proofs.Passing.Staging

/-! The places that arguments are in at a call: the first ones in the registers of their lanes, and
the others in their slots. -/
namespace Nasm64

open Lower Register Machine

namespace Ty

/-- What is no array is as wide in a register as in memory. -/
theorem toInt_size_decay (ty : Ty) : ty.decay.size.toInt = ty.decay.registerSize := by
  cases ty <;> rfl

theorem float_inPool {ty : Ty} (float : ty.isFloat = true) :
    inPool true ty.registerSize = true := by
  cases ty with
  | prim primitive => cases primitive <;> first | rfl | cases float
  | _ => cases float

end Ty

/-- The register of a lane for a value of a type. -/
def Lane.register (lane : Lane) (ty : Ty) : Register :=
  ⟨if ty.isFloat then lane.float else lane.general, ty.registerSize⟩

/-- The argument at an index, from its lane if it has one and from its slot otherwise. -/
def Machine.argument (machine : Machine) (area : BitVec 64) (index : Nat) (ty : Ty) : BitVec 64 :=
  match Lane.all[index]? with
  | some lane => machine.view (lane.register ty)
  | none => machine.memory.load (Call.slotAddress area index) ty.registerSize.toNat

namespace Lane

theorem register_working (listed : lane ∈ all)
    (supported : inPool ty.isFloat ty.registerSize = true) :
    (lane.register ty).Working ty.isFloat := by
  refine ⟨?_, supported⟩
  have pooled : ∀ lane ∈ all, lane.float ∈ staging true :: poolFamilies true ∧
      lane.general ∈ staging false :: poolFamilies false := by decide
  cases float : ty.isFloat with
  | true => simpa [register, float] using (pooled lane listed).1
  | false => simpa [register, float] using (pooled lane listed).2

theorem families_apart : ∀ first second : Fin all.length, first < second →
    all[first].float ≠ all[second].float ∧ all[first].float ≠ all[second].general ∧
    all[first].general ≠ all[second].float ∧ all[first].general ≠ all[second].general := by
  decide

theorem register_ne {lane other : Lane} {ty wide : Ty} {i later : Nat}
    (found : all[i]? = some lane) (looked : all[later]? = some other) (less : i < later) :
    (lane.register ty).family ≠ (other.register wide).family := by
  obtain ⟨before, rfl⟩ := List.getElem?_eq_some_iff.mp found
  obtain ⟨after, rfl⟩ := List.getElem?_eq_some_iff.mp looked
  obtain ⟨floats, mixed, crossed, generals⟩ := families_apart ⟨i, before⟩ ⟨later, after⟩ less
  unfold register
  split <;> split <;> assumption

end Lane

namespace Machine

variable {world : World} {m next : Machine} {dst : Register} {src : Operand}

theorem floatMove_ne_xchg (size : Int) : Conversion.floatMove size ≠ .xchg := by
  unfold Conversion.floatMove
  split <;> decide

theorem move_agrees (ord : dst.family.isOrdinary = true)
    (ran : run world (move dst src) m = some next) :
    Agrees (fun fam => fam = dst.family) (fun _ => False) m next := by
  unfold move at ran
  split at ran
  all_goals
    simp only [run, step, Option.bind_eq_some_iff] at ran
    obtain ⟨_, stepped, same⟩ := ran
    cases same
  · exact binary_agrees ord (floatMove_ne_xchg _) stepped fun _ => rfl
  · exact binary_agrees ord (by decide) stepped fun _ => rfl

theorem move_spares (ord : dst.family.isOrdinary = true) (byte : BitVec 64) :
    Spares world (move dst src) m byte := by
  have whole : ∀ next, run world (move dst src) m = some next →
      next.memory byte = m.memory byte := fun next ran => (move_agrees ord ran).memory byte id
  unfold move at whole ⊢
  split at whole
  · rename_i float
    rw [if_pos float]
    exact .line fun next stepped => whole next (run_singleton stepped)
  · rename_i general
    rw [if_neg general]
    exact .line fun next stepped => whole next (run_singleton stepped)

end Machine

/-- Loads the lane of an argument, if it has one. -/
def Lane.load (index : Nat) (ty : Ty) : Code :=
  match Lane.all[index]? with
  | some lane => move (lane.register ty) (.mem ty.registerSize (argumentSlot index))
  | none => []

def Lane.loads (index : Nat) : List Ty → Code
  | [] => []
  | ty :: rest => Lane.load index ty ++ Lane.loads (index + 1) rest

def Lane.Supports (index : Nat) (types : List Ty) : Prop :=
  ∀ position ty lane, types[position]? = some ty → Lane.all[index + position]? = some lane →
    Register.inPool ty.isFloat ty.registerSize = true

namespace Lane

variable {world : World} {m next : Machine} {i : Nat} {ty : Ty} {types : List Ty}

theorem Supports.head (supports : Supports i (ty :: types)) (found : all[i]? = some lane) :
    inPool ty.isFloat ty.registerSize = true := supports 0 ty lane rfl found

theorem Supports.cons
    (here : ∀ lane, all[i]? = some lane → inPool ty.isFloat ty.registerSize = true)
    (there : Supports (i + 1) types) : Supports i (ty :: types) := by
  intro pos other lane listed found
  cases pos with
  | zero =>
    obtain rfl : ty = other := by simpa using listed
    exact here lane found
  | succ pos => exact there pos other lane listed (by rwa [Nat.add_right_comm])

theorem Supports.tail (supports : Supports i (ty :: types)) : Supports (i + 1) types := by
  intro pos other lane listed found
  exact supports (pos + 1) other lane listed (by rwa [Nat.add_assoc, Nat.add_comm 1] at found)

theorem load_spares (supports : Supports i (ty :: types)) (byte : BitVec 64) :
    Spares world (load i ty) m byte := by
  unfold load
  split
  · rename_i lane found
    exact move_spares
      (register_working (List.mem_of_getElem? found) (supports.head found)).ordinary byte
  · exact .nil

theorem loads_spare (supports : Supports i types) (m : Machine) (byte : BitVec 64) :
    Spares world (loads i types) m byte := by
  induction types generalizing i m with
  | nil => exact .nil
  | cons ty rest ih => exact .append (load_spares supports byte) fun _ _ => ih supports.tail _

theorem load_agrees (supports : Supports i (ty :: types))
    (ran : m.run world (load i ty) = some next) :
    Agrees (fun fam => ∃ lane, all[i]? = some lane ∧
      fam = (lane.register ty).family) (fun _ => False) m next := by
  unfold load at ran
  split at ran
  · rename_i lane found
    have working := register_working (List.mem_of_getElem? found) (supports.head found)
    exact (move_agrees working.ordinary ran).mono (fun _ same => ⟨lane, found, same⟩)
      fun _ => id
  · cases ran
    exact .refl _

section

variable (supports : Supports i types) (ran : m.run world (loads i types) = some next)

include supports ran

theorem loads_agree :
    Agrees (fun fam => ∃ later ty lane, i ≤ later ∧ all[later]? = some lane ∧
      fam = (lane.register ty).family) (fun _ => False) m next := by
  induction types generalizing i m with
  | nil =>
    cases ran
    exact .refl _
  | cons ty rest ih =>
    rw [loads, run_append, Option.bind_eq_some_iff] at ran
    obtain ⟨mid, here, there⟩ := ran
    refine ((load_agrees supports here).mono ?_ fun _ => id).trans
      ((ih supports.tail there).mono ?_ fun _ => id)
    · rintro fam ⟨lane, found, same⟩
      exact ⟨i, ty, lane, Nat.le_refl _, found, same⟩
    · rintro fam ⟨later, other, lane, after, found, same⟩
      exact ⟨later, other, lane, by omega, found, same⟩

theorem loads_beside : m.Beside next := by
  have agrees := loads_agree supports ran
  have lanes : ∀ lane ∈ all, ∀ ty : Ty, (lane.register ty).family.isOrdinary = true := by
    intro lane listed ty
    have ord : ∀ lane ∈ all, lane.float.isOrdinary = true ∧ lane.general.isOrdinary = true := by
      decide
    unfold register
    split
    · exact (ord lane listed).1
    · exact (ord lane listed).2
  have kept : ∀ fam, fam.isOrdinary = false → next.reg fam = m.reg fam := by
    intro fam special
    refine agrees.registers fam ?_
    rintro ⟨_, ty, lane, _, found, rfl⟩
    rw [lanes lane (List.mem_of_getElem? found) ty] at special
    cases special
  exact ⟨kept _ rfl, kept _ rfl, agrees.floor⟩

end

theorem load_sets (supports : Supports i (ty :: types)) (found : all[i]? = some lane)
    (ran : m.run world (load i ty) = some next) :
    next.view (lane.register ty) = m.memory.load (Call.slotAddress (m.reg .rsp) i)
      ty.registerSize.toNat := by
  have working := register_working (List.mem_of_getElem? found) (supports.head found)
  have content : m.content ty.isFloat world (lane.register ty).size
      (.mem ty.registerSize (argumentSlot i)) = some (m.memory.load
        (Call.slotAddress (m.reg .rsp) i) ty.registerSize.toNat) := by
    rw [← address_argumentSlot world]
    cases ty.isFloat <;> simp [Machine.content, Machine.read, Machine.fetch, register]
  obtain ⟨_, moved, sets⟩ := move_runs world m working content
  simp only [load, found] at ran
  rw [moved] at ran
  cases ran
  exact sets.view

/-- Once the lanes are loaded, an argument that fills its slot is where the callee expects it. -/
theorem loads_pass (supports : Supports i types) (ran : m.run world (loads i types) = some next)
    {pos : Nat} (listed : types[pos]? = some ty) : next.argument (next.reg .rsp) (i + pos) ty =
    m.memory.load (Call.slotAddress (m.reg .rsp) (i + pos)) ty.registerSize.toNat := by
  induction types generalizing i m pos with
  | nil => cases listed
  | cons first rest ih =>
    have beside := loads_beside supports ran
    have agrees := loads_agree supports ran
    have memory : next.memory = m.memory := funext fun byte => agrees.memory byte id
    rw [loads, run_append, Option.bind_eq_some_iff] at ran
    obtain ⟨mid, here, there⟩ := ran
    cases pos with
    | succ pos =>
      have same : mid.memory = m.memory :=
        funext fun byte => (load_agrees supports here).memory byte id
      have later := ih supports.tail there listed
      have stack : mid.reg .rsp = m.reg .rsp := by
        rw [← (loads_beside supports.tail there).stack, beside.stack]
      rwa [same, stack, Nat.add_assoc, Nat.add_comm 1] at later
    | zero =>
      obtain rfl : first = ty := by simpa using listed
      rw [Nat.add_zero]
      unfold argument
      split
      · rename_i lane found
        have set := load_sets supports found here
        have kept : next.reg (lane.register first).family = mid.reg (lane.register first).family := by
          refine (loads_agree supports.tail there).registers _ ?_
          rintro ⟨later, other, next, after, looked, same⟩
          exact register_ne found looked (by omega) same
        rw [← set, Machine.view, Machine.view, kept]
      · rw [memory, beside.stack]

end Lane

end Nasm64
