import Nasm64.Proofs.Usage.Replay

/-! How the names of a method body are resolved. Declarations are numbered as they come, and a name
denotes the innermost one that is visible. Offsets in a frame stand for these numbers. -/
namespace Nasm64

/-- A variable that is declared in a method body. -/
structure Declared where
  name : String
  position : Position
deriving DecidableEq, Repr

def Declared.warning (declared : Declared) : Lower.Warning :=
  ⟨.extra, declared.position, "variable '" ++ declared.name ++ "' is declared but never used"⟩

/-- The names of a method body, as far as it was read: what they denote, the innermost first, the
variables declared so far, and the numbers of those that are used. Parameters have no number. -/
structure Resolution where
  bindings : List (String × Option Nat) := []
  declared : List Declared := []
  used : List Nat := []

namespace Resolution

def mention (state : Resolution) (names : List String) : Resolution :=
  { state with used := state.used ++ names.filterMap fun name => (state.bindings.lookup name).join }

def declare (state : Resolution) (name : String) (position : Position) : Resolution :=
  { state with
    bindings := (name, some state.declared.length) :: state.bindings
    declared := state.declared ++ [⟨name, position⟩] }

/-- What is declared inside is not visible afterwards. -/
def within (state : Resolution) (inner : Resolution → Resolution) : Resolution :=
  { inner state with bindings := state.bindings }

/-- The variables that no name denotes, in order of declaration. -/
def unused (state : Resolution) : List Declared :=
  (state.declared.zipIdx.filter fun entry => !state.used.contains entry.2).map Prod.fst

theorem mention_nil (state : Resolution) : state.mention [] = state := by
  simp [mention]

theorem mem_used_mention {state : Resolution} : number ∈ (state.mention names).used ↔
    number ∈ state.used ∨ ∃ name ∈ names, (state.bindings.lookup name).join = some number := by
  rw [mention, List.mem_append, List.mem_filterMap]

theorem mention_cons (state : Resolution) (name : String) (rest : List String) :
    state.mention (name :: rest) = (state.mention [name]).mention rest := by
  simp only [mention, List.append_assoc, ← List.filterMap_append]
  rfl

end Resolution

namespace Stmt

mutual

def resolve : Stmt → Resolution → Resolution
  | declaration position name _ init, state =>
    (state.mention (init.elim [] Expr.mentions)).declare name position
  | assignment _ target value, state => state.mention (value.mentions ++ target.mentions)
  | returning _ value, state => state.mention (value.elim [] Expr.mentions)
  | expression _ value, state => state.mention value.mentions
  | conditional _ condition whenTrue none, state =>
    (state.mention condition.mentions).within (resolveBlock whenTrue)
  | conditional _ condition whenTrue (some otherwise), state =>
    ((state.mention condition.mentions).within (resolveBlock whenTrue)).within (resolveBlock otherwise)
  | loop _ condition body, state => (state.mention condition.mentions).within (resolveBlock body)
  | block _ body, state => state.within (resolveBlock body)
termination_by structural stmt => stmt

/-- Nothing after a return is lowered. -/
def resolveBlock : List Stmt → Resolution → Resolution
  | [], state => state
  | stmt :: rest, state =>
    if stmt.isReturn then stmt.resolve state else resolveBlock rest (stmt.resolve state)
termination_by structural stmts => stmts

end

end Stmt

def Method.resolution (method : Method) : Resolution :=
  Stmt.resolveBlock (method.body.getD [])
    { bindings := (method.parameters.map fun parameter => (parameter.name, none)).reverse }

namespace Lower.Frame.Sketch

/-- The number of the variable that is declared at an offset. -/
def owner (sketch : Sketch) (offset : Int64) : Option Nat :=
  sketch.locals.findIdx? fun declared => declared.offset == offset

/-- Names denote the variables at their offsets, which are in the part of the frame that is taken. -/
def Binds (sketch : Sketch) : List (String × Int64) → List (String × Option Nat) → Prop :=
  List.Forall₂ fun entry binding => entry.1 = binding.1 ∧
    entry.2.toInt ≤ sketch.position.toInt ∧ sketch.owner entry.2 = binding.2

/-- Slots were taken for some needs, and variables declared in them. -/
structure Advances (sketch : Sketch) (needs : List Need) (next : Sketch) : Prop where
  reached : next.position.toInt = Need.extent sketch.position.toInt needs
  added : ∃ more, next.locals = sketch.locals ++ more ∧
    ∀ declared ∈ more, sketch.position.toInt < declared.offset.toInt

/-- The slots of a frame stand for the names of a method body. -/
structure Mirrors (sketch : Sketch) (state : Resolution) : Prop where
  natural : 0 ≤ sketch.position.toInt
  bound : sketch.Binds sketch.scope state.bindings
  declared : state.declared = sketch.locals.map fun declared => ⟨declared.name, declared.position⟩
  apart : sketch.locals.Pairwise fun first second => first.offset ≠ second.offset
  taken : ∀ offset ∈ sketch.locals.map Local.offset ++ sketch.referenced,
    offset.toInt ≤ sketch.position.toInt
  used : ∀ number, number ∈ state.used ↔ ∃ offset ∈ sketch.referenced, sketch.owner offset = some number

variable {sketch middle next : Sketch} {state : Resolution} {offset : Int64} {needs more : List Need}
  {scope : List (String × Int64)} {bindings : List (String × Option Nat)}

theorem owner_append (sketch : Sketch) (offset : Int64) (more : List Local) :
    Sketch.owner { sketch with locals := sketch.locals ++ more } offset =
      (sketch.owner offset).or ((more.findIdx? fun declared => declared.offset == offset).map
        (· + sketch.locals.length)) :=
  List.findIdx?_append

/-- Nothing is declared beyond the part that is taken. -/
theorem Mirrors.owner_eq_none (mirrors : sketch.Mirrors state)
    (beyond : sketch.position.toInt < offset.toInt) : sketch.owner offset = none := by
  rw [owner, List.findIdx?_eq_none_iff]
  intro declared listed
  have low := mirrors.taken declared.offset
    (List.mem_append_left _ (List.mem_map_of_mem listed))
  refine beq_false_of_ne ?_
  rintro rfl
  omega

namespace Advances

theorem refl (sketch : Sketch) : sketch.Advances [] sketch := ⟨rfl, [], by simp⟩

theorem le (advances : sketch.Advances needs next) : sketch.position.toInt ≤ next.position.toInt := by
  rw [advances.reached]
  exact Need.le_extent _ _

theorem trans (first : sketch.Advances needs middle) (second : middle.Advances more next) :
    sketch.Advances (needs ++ more) next where
  reached := by rw [Need.extent_append, ← first.reached, second.reached]
  added := by
    obtain ⟨some, same, beyond⟩ := first.added
    obtain ⟨others, further, later⟩ := second.added
    refine ⟨some ++ others, by rw [further, same, List.append_assoc], ?_⟩
    have low := first.le
    refine List.forall_mem_append.mpr ⟨beyond, fun declared mem => ?_⟩
    have high := later declared mem
    omega

/-- What is declared later is elsewhere. -/
theorem owner_eq (advances : sketch.Advances needs next) (low : offset.toInt ≤ sketch.position.toInt) :
    next.owner offset = sketch.owner offset := by
  obtain ⟨more, same, beyond⟩ := advances.added
  have absent : (more.findIdx? fun declared => declared.offset == offset) = none := by
    rw [List.findIdx?_eq_none_iff]
    intro declared mem
    have high := beyond declared mem
    refine beq_false_of_ne ?_
    rintro rfl
    omega
  rw [owner, same]
  refine (owner_append sketch offset more).trans ?_
  rw [absent, Option.map_none, Option.or_none]

theorem binds (advances : sketch.Advances needs next) (binds : sketch.Binds scope bindings) :
    next.Binds scope bindings := by
  have further := advances.le
  refine binds.imp ?_
  rintro entry binding ⟨same, low, owned⟩
  exact ⟨same, by omega, (advances.owner_eq low).trans owned⟩

end Advances

theorem Binds.lookup (binds : sketch.Binds scope bindings) (name : String) :
    (bindings.lookup name).join = (scope.lookup name).bind sketch.owner ∧
      ∀ offset ∈ scope.lookup name, offset.toInt ≤ sketch.position.toInt := by
  induction binds with
  | nil => simp
  | @cons entry binding rest others here _ ih =>
    obtain ⟨same, low, owned⟩ := here
    rw [List.lookup_cons, List.lookup_cons, same]
    cases name == binding.1 with
    | true => simp [owned, low]
    | false => exact ih

namespace Mirrors

variable {need : Need}

/-- Slots that stand for nothing. -/
theorem reserved (mirrors : sketch.Mirrors state) (aligned : Ty.Alignment need.align)
    (fits : need.place sketch.position.toInt < 2 ^ 63) :
    (Effect.replay sketch (.reserved need)).Mirrors state ∧
      sketch.Advances [need] (Effect.replay sketch (.reserved need)) := by
  have placed := Need.toInt_next aligned mirrors.natural fits
  have advances : sketch.Advances [need] (Effect.replay sketch (.reserved need)) :=
    ⟨placed, [], by simp [Effect.replay]⟩
  have natural := mirrors.natural
  have further := advances.le
  refine ⟨⟨by omega, advances.binds mirrors.bound, mirrors.declared, mirrors.apart, ?_, mirrors.used⟩, advances⟩
  intro offset mem
  have low := mirrors.taken offset mem
  omega

/-- A name is found to denote the variable at its offset. -/
theorem found (mirrors : sketch.Mirrors state) (name : String) :
    (Effect.replay sketch (.found name)).Mirrors (state.mention [name]) ∧
      sketch.Advances [] (Effect.replay sketch (.found name)) := by
  obtain ⟨denoted, low⟩ := mirrors.bound.lookup name
  have mentioned (number : Nat) : number ∈ (state.mention [name]).used ↔
      number ∈ state.used ∨ (sketch.scope.lookup name).bind sketch.owner = some number := by
    simp [Resolution.mem_used_mention, ← denoted]
  cases located : sketch.scope.lookup name with
  | none =>
    rw [show Effect.replay sketch (.found name) = sketch by rw [Effect.replay, located]]
    refine ⟨⟨mirrors.natural, mirrors.bound, mirrors.declared, mirrors.apart, mirrors.taken, ?_⟩, .refl sketch⟩
    intro number
    rw [mentioned, located, mirrors.used]
    simp
  | some offset =>
    have beneath := low offset located
    rw [show Effect.replay sketch (.found name) = { sketch with referenced := sketch.referenced.insert offset } by
      rw [Effect.replay, located]]
    refine ⟨⟨mirrors.natural, mirrors.bound, mirrors.declared, mirrors.apart, ?_, ?_⟩, rfl, [], by simp⟩
    · intro other mem
      simp only [List.mem_append, List.mem_insert_iff] at mem
      rcases mem with declared | rfl | earlier
      · exact mirrors.taken other (List.mem_append_left _ declared)
      · exact beneath
      · exact mirrors.taken other (List.mem_append_right _ earlier)
    · intro number
      rw [mentioned, located, mirrors.used]
      simp only [List.mem_insert_iff, Option.bind_some, or_and_right, exists_or, exists_eq_left]
      exact or_comm

theorem mention_congr (mirrors : sketch.Mirrors (state.mention names))
    (same : ∀ name, name ∈ names ↔ name ∈ others) : sketch.Mirrors (state.mention others) := by
  refine { mirrors with used := fun number => Iff.trans ?_ (mirrors.used number) }
  simp only [Resolution.mem_used_mention, same]

theorem lt_next (mirrors : sketch.Mirrors state) (aligned : Ty.Alignment need.align)
    (fits : need.place sketch.position.toInt < 2 ^ 63) :
    sketch.position.toInt < (need.next sketch.position).toInt := by
  have least := need.le_place sketch.position.toInt
  have positive := need.bytes_pos
  rw [Need.toInt_next aligned mirrors.natural fits]
  omega

/-- A parameter is declared in the next slot. -/
theorem parameter (mirrors : sketch.Mirrors state) (name : String) (ty : Ty)
    (fits : (Need.ofType ty).place sketch.position.toInt < 2 ^ 63) :
    (Effect.replay sketch (.declared name ty)).Mirrors { state with bindings := (name, none) :: state.bindings } ∧
      sketch.Advances [.ofType ty] (Effect.replay sketch (.declared name ty)) := by
  obtain ⟨held, advances⟩ := mirrors.reserved ty.align_alignment fits
  have free := mirrors.owner_eq_none (mirrors.lt_next ty.align_alignment fits)
  refine ⟨⟨held.natural, ?_, held.declared, held.apart, held.taken, held.used⟩, advances.reached, advances.added⟩
  exact .cons ⟨rfl, Int.le_refl _, free⟩ held.bound

/-- A variable is declared in the next slot, and noted. -/
theorem noted (mirrors : sketch.Mirrors state) (name : String) (pos : Position) (ty : Ty)
    (fits : (Need.ofType ty).place sketch.position.toInt < 2 ^ 63)
    (same : next = { Effect.replay sketch (.declared name ty) with
      locals := sketch.locals ++ [⟨name, (Need.ofType ty).next sketch.position, pos⟩] }) :
    next.Mirrors (state.declare name pos) ∧ sketch.Advances [.ofType ty] next := by
  obtain ⟨held, advances⟩ := mirrors.reserved ty.align_alignment fits
  have beyond := mirrors.lt_next ty.align_alignment fits
  have free := mirrors.owner_eq_none beyond
  have grown : sketch.Advances [.ofType ty] next := by
    subst same
    exact ⟨advances.reached, _, rfl, by simpa using beyond⟩
  refine ⟨?_, grown⟩
  subst same
  refine ⟨held.natural, .cons ⟨rfl, Int.le_refl _, ?_⟩ (grown.binds mirrors.bound), ?_, ?_, ?_, ?_⟩
  · show (sketch.locals ++ [_]).findIdx? _ = some state.declared.length
    rw [List.findIdx?_append, show sketch.locals.findIdx? _ = none from free, mirrors.declared]
    simp
  · simp [Resolution.declare, mirrors.declared]
  · refine List.pairwise_append.mpr ⟨mirrors.apart, List.pairwise_singleton _ _, fun earlier mem later here => ?_⟩
    have low := mirrors.taken earlier.offset (List.mem_append_left _ (List.mem_map_of_mem mem))
    rw [List.mem_singleton.mp here]
    rintro (alike : earlier.offset = (Need.ofType ty).next sketch.position)
    rw [alike] at low
    omega
  · intro offset mem
    have taken := held.taken offset
    simp only [Effect.replay, List.map_append, List.mem_append, List.map_singleton, List.mem_singleton] at mem taken
    rcases mem with (earlier | rfl) | referenced
    · exact taken (.inl earlier)
    · exact Int.le_refl _
    · exact taken (.inr referenced)
  · intro number
    show number ∈ state.used ↔ _
    rw [mirrors.used]
    refine exists_congr fun offset => and_congr_right fun mem => ?_
    rw [grown.owner_eq (mirrors.taken offset (List.mem_append_right _ mem))]

end Mirrors

end Lower.Frame.Sketch

open Lower

/-- Names that are read while slots are taken. -/
theorem Lower.Effect.Reads.mirrors (reads : Reads effects names) {sketch : Frame.Sketch} {state : Resolution}
    (mirrors : sketch.Mirrors state) (fits : Need.extent sketch.position.toInt (needs effects) < 2 ^ 63) :
    (effects.foldl replay sketch).Mirrors (state.mention names) ∧
      sketch.Advances (needs effects) (effects.foldl replay sketch) := by
  induction reads generalizing sketch state with
  | nil =>
    rw [state.mention_nil]
    exact ⟨mirrors, .refl sketch⟩
  | @reserved need effects names aligned rest ih =>
    change Need.extent (need.place sketch.position.toInt) (needs effects) < 2 ^ 63 at fits
    have further := Need.le_extent (need.place sketch.position.toInt) (needs effects)
    obtain ⟨held, advances⟩ := mirrors.reserved aligned (by omega)
    rw [← show _ = need.place sketch.position.toInt from advances.reached] at fits
    obtain ⟨after, more⟩ := ih held fits
    exact ⟨after, advances.trans more⟩
  | @found name effects names rest ih =>
    obtain ⟨held, advances⟩ := mirrors.found name
    rw [← show _ = sketch.position.toInt from advances.reached] at fits
    obtain ⟨after, more⟩ := ih held fits
    rw [state.mention_cons]
    exact ⟨after, advances.trans more⟩

end Nasm64
