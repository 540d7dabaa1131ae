import Nasm64.Proofs.Layout.Method
import Nasm64.Proofs.Passing.Lanes

/-! How a method copies its arguments into slots of its frame. -/
namespace Nasm64

namespace Ty

theorem width_of_isScalar {ty : Ty} (scalar : ty.isScalar = true) :
    ty.registerSize = 1 ∨ ty.registerSize = 2 ∨ ty.registerSize = 4 ∨ ty.registerSize = 8 := by
  have pooled := inPool_of_isScalar scalar
  unfold Register.inPool at pooled
  split at pooled
  all_goals
    simp only [Bool.or_eq_true, beq_iff_eq] at pooled
    omega

theorem bytes_of_isScalar (scalar : ty.isScalar = true) : (Lower.Need.ofType ty).bytes =
    ty.registerSize ∧ 0 ≤ ty.registerSize ∧ ty.registerSize ≤ 8 := by
  cases ty with
  | prim primitive => cases primitive <;> decide
  | pointer dst =>
    refine ⟨rfl, ?_, ?_⟩
    · exact Int.le.intro 8 rfl
    · exact Int.le_refl 8
  | _ => cases scalar

end Ty

namespace Lower

/-- Where a method finds an argument that came on the stack: above its frame pointer, the one of its
caller and the return address. -/
def incomingSlot (index : Nat) : Address :=
  { base := .reg .framePointer, displacement := 16 + Int64.ofNat index * Call.slotSize }

def copyArgument (index : Nat) (slot : Variable) : Code :=
  let target : Operand := .mem slot.type.registerSize (.frameSlot slot.offset)
  match Lane.all[index]? with
  | some lane => store target (lane.register slot.type)
  | none =>
    let scratch := Register.scratch.resize slot.type.registerSize
    [.mov (.reg scratch) (.mem slot.type.registerSize (incomingSlot index)),
      .mov target (.reg scratch)]

def copyArguments (index : Nat) : List Variable → Code
  | [] => []
  | slot :: rest => copyArgument index slot ++ copyArguments (index + 1) rest

/-- The part of the frame that a variable has. -/
def Variable.frameSlot (slot : Variable) : FrameSlot := ⟨.ofType slot.type, slot.offset⟩

/-- The variables of some parameters, in their order, when the slots before them end at `start`. -/
structure Hold (start : Int64) (parameters : List Parameter) (slots : List Variable) : Prop where
  types : slots.map Variable.type = parameters.map fun parameter => parameter.type.decay
  scalar : ∀ slot ∈ slots, slot.type.isScalar = true
  laid : 0 ≤ start.toInt → Need.extent start.toInt (parameterNeeds parameters) ≤ 2 ^ 62 →
    FrameSlot.Laid start.toInt (slots.map Variable.frameSlot)

/-- The slots of parameters lie apart, and in every frame that has room for them. -/
theorem Hold.within (hold : Hold 0 parameters slots)
    (small : Need.extent 0 (parameterNeeds parameters) ≤ 2 ^ 62)
    (room : Need.extent 0 (parameterNeeds parameters) ≤ size) :
    (slots.map Variable.frameSlot).Pairwise FrameSlot.Disjoint ∧
      ∀ slot ∈ slots, slot.frameSlot.bytes ≤ slot.offset.toInt ∧ slot.offset.toInt ≤ size := by
  have laid := hold.laid (Int.le_refl _) small
  simp only [Int64.toInt_zero] at laid
  refine ⟨laid.pairwise, fun slot mem => ?_⟩
  have asked : (slots.map Variable.frameSlot).map (·.toNeed) = parameterNeeds parameters := by
    have types := congrArg (List.map Need.ofType) hold.types
    rw [List.map_map, List.map_map] at types
    rw [List.map_map]
    exact types
  obtain ⟨low, high⟩ := laid.bounds (List.mem_map_of_mem mem)
  rw [asked] at high
  have offset : slot.frameSlot.offset = slot.offset := rfl
  rw [offset] at low high
  omega

/-- A parameter is found by its name, in a slot of the type it decays to, unless a later one has the
same name. -/
theorem Hold.lookup (hold : Hold start (before ++ param :: after) slots)
    (last : ∀ other ∈ after, other.name ≠ param.name) :
    ∃ slot, slots[before.length]? = some slot ∧ slot.type = param.type.decay ∧
      ((((before ++ param :: after).map Parameter.name).zip slots).reverse ++ scope).lookup
        param.name = some slot := by
  have types := hold.types
  rw [List.map_append, List.map_cons] at types
  obtain ⟨first, others, rfl, firsts, rest⟩ := List.map_eq_append_iff.mp types
  obtain ⟨slot, behind, rfl, typed, _⟩ := List.map_eq_cons_iff.mp rest
  have length : before.length = first.length := by simpa using (congrArg List.length firsts).symm
  refine ⟨slot, by simp [length], typed, ?_⟩
  have hidden : (((after.map Parameter.name).zip behind).reverse).lookup param.name = none := by
    rw [List.lookup_eq_none_iff]
    rintro ⟨name, other⟩ mem
    obtain ⟨later, among, rfl⟩ := List.mem_map.mp (List.of_mem_zip (List.mem_reverse.mp mem)).1
    simpa using (last later among).symm
  rw [List.map_append, List.map_cons, List.zip_append (by simpa using length), List.zip_cons_cons]
  simp [List.lookup_append, hidden]

variable {env : Env} {frame next : Frame} {code : Code} {method : String} {i : Nat}

theorem yields_lowerParameter (run : Yields (lowerParameter method i param) env frame code next) :
    ∃ slot reserved, slot.type = param.type.decay ∧ slot.type.isScalar = true ∧
      code = copyArgument i slot ∧ next.scope = (param.name, slot) :: frame.scope ∧
      frame.reserve slot.type.size slot.type.align = (slot.offset, reserved) ∧
      next.position = reserved.position :=
    by
  unfold lowerParameter at run
  dsimp only at run
  split at run
  · exact absurd run yields_fail
  · rename_i scalar
    simp only [Bool.not_eq_true', Bool.not_eq_false] at scalar
    obtain ⟨slot, mid, allocated, run⟩ := yields_bind.mp run
    have same : slot.type = param.type.decay ∧ mid.scope = (param.name, slot) :: frame.scope ∧
        ∃ reserved, frame.reserve param.type.decay.size param.type.decay.align =
          (slot.offset, reserved) ∧ mid.position = reserved.position := by
      have allocated := yields_allocate.mp allocated
      simp only [Frame.allocate, Prod.mk.injEq] at allocated
      obtain ⟨rfl, rfl⟩ := allocated
      split <;> exact ⟨rfl, rfl, _, rfl, rfl⟩
    obtain ⟨typed, entered, reserved, reserves, pos⟩ := same
    rw [← typed] at run reserves scalar
    have copied : code = copyArgument i slot ∧ mid = next := by
      unfold copyArgument
      generalize Lane.all[i]? = lane at run
      cases lane with
      | none | some _ => exact (yields_pure.mp run).imp_left Eq.symm
    obtain ⟨rfl, rfl⟩ := copied
    exact ⟨slot, reserved, typed, scalar, rfl, entered, reserves, pos⟩

theorem yields_lowerParameters
    (run : Yields (lowerParameters method i params) env frame code next) :
    ∃ slots, Hold frame.position params slots ∧ code = copyArguments i slots ∧
      next.scope = ((params.map Parameter.name).zip slots).reverse ++ frame.scope := by
  induction params generalizing i frame code with
  | nil =>
    obtain ⟨rfl, rfl⟩ := yields_pure.mp run
    exact ⟨[], ⟨rfl, by simp, fun _ _ => trivial⟩, rfl, rfl⟩
  | cons param rest ih =>
    simp only [lowerParameters, yields_bind, yields_pure] at run
    obtain ⟨_, mid, first, _, _, others, rfl, rfl⟩ := run
    obtain ⟨slot, reserved, typed, scalar, rfl, entered, reserves, pos⟩ :=
      yields_lowerParameter first
    obtain ⟨slots, hold, rfl, scope⟩ := ih others
    refine ⟨slot :: slots, ⟨by simp [typed, hold.types], ?_, fun natural fits => ?_⟩, rfl, ?_⟩
    · exact List.forall_mem_cons.mpr ⟨scalar, hold.scalar⟩
    · have extents : Need.extent frame.position.toInt (parameterNeeds (param :: rest)) =
          Need.extent ((Need.ofType slot.type).place frame.position.toInt) (parameterNeeds rest) := by
        rw [typed]
        rfl
      rw [extents] at fits
      have reached := Need.le_extent ((Need.ofType slot.type).place frame.position.toInt)
        (parameterNeeds rest)
      obtain ⟨placed, ends⟩ := Frame.reserve_place reserves natural
        (Int.le_trans reached fits)
      rw [← pos] at ends
      have start : mid.position.toInt = (Need.ofType slot.type).place frame.position.toInt := by
        rw [ends]
        exact placed
      have least := (Need.ofType slot.type).le_place frame.position.toInt
      have bytes := (Need.ofType slot.type).bytes_pos
      refine ⟨placed, ?_⟩
      have laid := hold.laid (by omega) (by rw [start]; exact fits)
      rw [start] at laid
      exact laid
    · simp [scope, entered]

end Lower
end Nasm64
