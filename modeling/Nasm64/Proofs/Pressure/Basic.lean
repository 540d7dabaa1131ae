import Nasm64.Proofs.Emission.Kept

/-! Which registers are free, and computations that always succeed. They ask for no register, so they
leave alone what is held and what is declared. -/
namespace Nasm64

/-- A family that can hold a value. Two delimit the frame, and other numbers name no family. -/
def Family.isUsable : Family → Bool
  | rsp | rbp | unknown _ => false
  | _ => true

theorem Family.hasView_of_isUsable {fam : Family} (usable : fam.isUsable = true) (size : Int) :
    fam.hasView size = if fam.isFloat then size == 4 || size == 8 || size == 16 else size == 1 ||
      size == 2 || size == 4 || size == 8 := by
  cases fam <;> first | rfl | cases usable

theorem Register.isUsable_of_pool {isFloat : Bool} {fam : Family}
    (mem : fam ∈ Register.poolFamilies isFloat) : fam.isUsable = true := by
  revert mem
  cases isFloat <;> revert fam <;> decide

namespace Lower

variable {α β : Type} {env : Env} {held : List Register}

def Halt.Exhausts : Halt → Prop
  | .failure ⟨_, .causedBy (.register (.exhausted _ _))⟩ => True
  | _ => False

theorem Halt.Exhausts.eq {halt : Halt} (exhausts : halt.Exhausts) : ∃ pos isFloat size, halt =
    .failure ⟨pos, .causedBy (.register (.exhausted isFloat size))⟩ := by
  unfold Halt.Exhausts at exhausts
  split at exhausts
  · exact ⟨_, _, _, rfl⟩
  · cases exhausts

def firstFree (held : List Register) (isFloat : Bool) : Option Family :=
  (Register.poolFamilies isFloat).find? fun family => !held.any fun holder => holder.family == family

theorem free_eq (frame : Frame) (isFloat : Bool) (size : Int) :
    frame.free isFloat size =
      if Register.inPool isFloat size then
        match firstFree frame.held isFloat with
        | some fam => .ok ⟨fam, size⟩
        | none => .error (.exhausted isFloat size)
      else .error (.noPool isFloat size) := by
  unfold Frame.free Register.pool
  split
  · simp only [bind, Except.bind, List.find?_map]
    have same : (Register.poolFamilies isFloat).find? ((fun r : Register =>
        !frame.inUse r.family && !([] : List Register).any r.aliases) ∘
          fun fam => ⟨fam, size⟩) = firstFree frame.held isFloat := by
      unfold firstFree
      congr 1
      funext fam
      simp [Frame.inUse]
    rw [same]
    cases firstFree frame.held isFloat <;> rfl
  · rfl

def Runs (env : Env) (held : List Register) (x : Lower α) (post : α → List Register → Prop) : Prop :=
  ∀ ⦃frame : Frame⦄, frame.held = held → ∃ value next, Yields x env frame value next ∧
    next.scope = frame.scope ∧ next.position = frame.position ∧ post value next.held

namespace Runs

variable {env : Env} {x : Lower α} {post : α → List Register → Prop}

theorem pure (holds : post v held) : Runs env held (Pure.pure v) post :=
  fun frame same => ⟨v, frame, yields_pure.mpr ⟨rfl, rfl⟩, rfl, rfl, same ▸ holds⟩

theorem bind {k : α → Lower β} {after : β → List Register → Prop} (first : Runs env held x post)
    (rest : ∀ v now, post v now → Runs env now (k v) after) : Runs env held (x >>= k) after := by
  intro frame same
  obtain ⟨v, mid, ran, scope, pos, holds⟩ := first same
  obtain ⟨res, next, continued, next_scope, next_position, ends⟩ := rest v _ holds rfl
  exact ⟨res, next, yields_bind.mpr ⟨v, mid, ran, continued⟩, next_scope.trans scope,
    next_position.trans pos, ends⟩

end Runs

/-- A computation that never fails and leaves alone what is held and what is declared. -/
def Idle (x : Lower α) : Prop := ∀ env held, Runs env held x fun _ now => now = held

namespace Idle

theorem still {x : Lower α} (idle : Idle x) {frame next : Frame} {v : α}
    (run : Yields x env frame v next) : next.position = frame.position := by
  obtain ⟨_, _, ran, _, pos, _⟩ := idle env frame.held rfl
  obtain ⟨_, rfl⟩ := run.unique ran
  exact pos

theorem pure (v : α) : Idle (Pure.pure v) := fun _ _ => .pure rfl

theorem bind {k : α → Lower β} (first : Idle x) (rest : ∀ v, Idle (k v)) : Idle (x >>= k) :=
    by
  intro env held
  refine (first env held).bind ?_
  rintro v _ rfl
  exact rest v env _

theorem get : Idle get := fun _ _ frame same =>
  ⟨frame, frame, yields_get.mpr ⟨rfl, rfl⟩, rfl, rfl, same⟩

theorem read : Idle read := fun env _ frame same =>
  ⟨env, frame, yields_read.mpr ⟨rfl, rfl⟩, rfl, rfl, same⟩

theorem modify
    (kept : ∀ frame, (change frame).held = frame.held ∧ (change frame).scope = frame.scope ∧
      (change frame).position = frame.position) : Idle (modify change) := by
  intro env held frame same
  obtain ⟨held_eq, scope, pos⟩ := kept frame
  exact ⟨(), _, yields_modify.mpr rfl, scope, pos, held_eq.trans same⟩

theorem ite {c : Prop} [Decidable c] {x y : Lower α} (holds : c → Idle x) (fails : ¬ c → Idle y) :
    Idle (if c then x else y) := by
  split
  · exact holds ‹_›
  · exact fails ‹_›

end Idle

theorem idle_warn (kind : WarningKind) (pos : Position) (message : String) :
    Idle (warn kind pos message) :=
  Idle.read.bind fun _ => .ite (fun _ => .modify fun _ => ⟨rfl, rfl, rfl⟩) fun _ => .pure ()

theorem idle_newLabel : Idle newLabel :=
  Idle.bind (.modify fun _ => ⟨rfl, rfl, rfl⟩) fun _ => Idle.read.bind fun _ =>
    Idle.get.bind fun _ => .pure _

end Lower
end Nasm64
