import Nasm64.Proofs.Account.Basic

/-! Nodes whose runs keep the frame, emit bracketed code and account for it, and the consumers of
such nodes. -/
namespace Nasm64

/-- The family that the value of a fragment is in, if it is in a register. -/
def Fragment.results {γ ω : Type} : Fragment γ ω → List Family
  | value _ register => [register.family]
  | inline _ | effect _ => []

namespace Lower

variable {env : Env} {inner frame start mid next : Frame} {weight bound : Nat}
  {results wider : List Family} {extra : List Register} {calls more : List (Option String)}
  {code last : Code} {frag : Lowered} {r dst : Register} {fam : Family}

theorem Bracketed.widen (bracketed : Bracketed env inner.depth none bound (inner.mayChange results) code)
    (same : inner.depth = frame.depth) (covers : inner.Covers frame) (heavier : bound ≤ weight)
    (includes : ∀ fam ∈ results, frame.mayChange wider fam) :
    Bracketed env frame.depth none weight (frame.mayChange wider) code := by
  rw [same] at bracketed
  exact bracketed.mono heavier fun fam => Frame.mayChange_mono covers includes

namespace Frame

/-- The code of a fragment changes nothing that is in use, and its value is in a register that may
receive it. -/
def Emits (frame : Frame) (env : Env) (weight : Nat) : Lowered → Prop
  | .inline _ => True
  | .value code register => frame.Receives register ∧
      Bracketed env frame.depth none weight (frame.mayChange [register.family]) code
  | .effect code => Bracketed env frame.depth none weight (frame.mayChange []) code

theorem Emits.bracketed (emits : frame.Emits env weight frag) :
    Bracketed env frame.depth none weight (frame.mayChange frag.results) frag.code := by
  cases frag with
  | inline opnd => exact .nil
  | value code r => exact emits.2
  | effect code => exact emits

theorem Emits.mono (emits : frame.Emits env bound frag) (heavier : bound ≤ weight) :
    frame.Emits env weight frag := by
  cases frag with
  | inline opnd => trivial
  | value code r => exact ⟨emits.1, emits.2.mono heavier fun _ changed => changed⟩
  | effect code => exact Bracketed.mono emits heavier fun _ changed => changed

structure Produces (frame : Frame) (env : Env) (weight : Nat) (fragment : Lowered) (next : Frame) :
    Prop where
  kept : frame.Kept next
  emits : frame.Emits env weight fragment

/-- Its code is accounted for as well, and makes these calls. -/
structure Gives (frame : Frame) (env : Env) (weight : Nat) (calls : List (Option String))
    (fragment : Lowered) (next : Frame) : Prop extends frame.Produces env weight fragment next where
  accounts : Accounts frame.touched frame.top calls fragment.code next.touched

theorem Gives.inline (kept : frame.Kept next) (notes : Notes frame.touched next.touched) :
    frame.Gives env weight [] (.inline opnd) next := ⟨⟨kept, trivial⟩, .nil notes⟩

theorem Gives.of_kept (kept : frame.Kept mid) (notes : Notes frame.touched mid.touched)
    (gives : mid.Gives env weight calls frag next) : frame.Gives env weight calls frag next := by
  refine ⟨⟨kept.trans gives.kept, ?_⟩, kept.top ▸ gives.accounts.of_notes notes⟩
  have emits := gives.emits
  cases frag with
  | inline opnd => trivial
  | value code r =>
    exact ⟨emits.1.of_kept kept, emits.2.widen kept.depth kept.covers (Nat.le_refl _)
      fun _ => mayChange_result⟩
  | effect code => exact Bracketed.widen emits kept.depth kept.covers (Nat.le_refl _) (by simp)

/-- Code between two frames may change a family. If the caller relies on it and it is not that of a
result, then it is noted. -/
def Permits (frame next : Frame) (results : List Family) (family : Family) : Prop :=
  frame.mayChange results family ∧ Excused next.touched results family

theorem Permits.result (mem : fam ∈ results) : frame.Permits next results fam :=
  ⟨mayChange_result mem, .result mem⟩

theorem Permits.fresh (unused : frame.inUse fam = false) :
    frame.Permits (next.touch fam) results fam := ⟨.inl unused, .touched _ _⟩

theorem Permits.scratch : frame.Permits next results Register.scratch.family :=
  ⟨.inr (.inl (by simp [scratchFamilies])), .of_not_saved rfl⟩

theorem Permits.floatScratch (mem : fam ∈ scratchFamilies) :
    frame.Permits (next.touch Register.floatScratch.family) results fam := by
  simp only [scratchFamilies, List.mem_cons, List.not_mem_nil, or_false] at mem
  rcases mem with rfl | rfl
  · exact .scratch
  · exact ⟨.inr (.inl (by simp [scratchFamilies])), .touched _ _⟩

theorem Permits.later (permits : frame.Permits mid results fam)
    (notes : Notes mid.touched next.touched) : frame.Permits next results fam :=
  ⟨permits.1, permits.2.later notes⟩

theorem Permits.outside (permits : inner.Permits next results fam) (covers : inner.Covers frame)
    (known : ∀ fam ∈ results, frame.Permits next wider fam) : frame.Permits next wider fam :=
  ⟨mayChange_mono covers (fun fam mem => (known fam mem).1) permits.1,
    permits.2.mono (fun _ => id) fun fam mem => (known fam mem).2⟩

/-- Code since a frame, after which some registers are held in addition. It is bracketed and
accounted for. -/
structure Sends (frame : Frame) (env : Env) (weight : Nat) (results : List Family)
    (extra : List Register) (calls : List (Option String)) (code : Code) (next : Frame) : Prop where
  grown : Grown extra frame next
  ordinary : next.Ordinary
  bracketed : Bracketed env frame.depth none weight (frame.mayChange results) code
  accounts : Accounts frame.touched results calls code next.touched

namespace Sends

theorem nil (ord : frame.Ordinary) : frame.Sends env weight results [] [] [] frame :=
  ⟨Kept.refl _, ord, .nil, .nil (.refl _)⟩

theorem silent (sends : frame.Sends env weight results extra calls code mid)
    (kept : mid.Kept next) (notes : Notes mid.touched next.touched) :
    frame.Sends env weight results extra calls code next :=
  ⟨sends.grown.trans kept, sends.ordinary.kept kept, sends.bracketed, sends.accounts.then_notes notes⟩

section

variable (sends : frame.Sends env weight results extra calls code next)

include sends

theorem touch (fam : Family) : frame.Sends env weight results extra calls code (next.touch fam) :=
  sends.silent ((Kept.refl _).touch fam) (.touch _ _)

theorem push (usable : r.family.isOrdinary = true) :
    frame.Sends env weight results (r :: extra) calls code (next.push r) :=
  ⟨sends.grown.push r, sends.ordinary.push usable, sends.bracketed, sends.accounts⟩

end

theorem pop (sends : frame.Sends env weight results (r :: extra) calls code next) :
    frame.Sends env weight results extra calls code next.pop :=
  ⟨sends.grown.pop, fun held mem => sends.ordinary held (List.mem_of_mem_tail mem),
    sends.bracketed, sends.accounts⟩

section

variable (sends : frame.Sends env weight results extra calls code next)

include sends

theorem drop : frame.Sends env weight results [] calls code
      { next with held := next.held.drop extra.length } :=
  ⟨sends.grown.drop, fun held mem => sends.ordinary held (List.mem_of_mem_drop mem),
    sends.bracketed, sends.accounts⟩

theorem quiet {families : List Family}
    (quiet : Quiet families last) (permitted : ∀ fam ∈ families, frame.Permits next results fam) :
    frame.Sends env weight results extra calls (code ++ last) next where
  grown := sends.grown
  ordinary := sends.ordinary
  bracketed := sends.bracketed.append (quiet.bracketed fun fam mem => (permitted fam mem).1)
  accounts := sends.accounts.ending (quiet.callFree fun fam mem => (permitted fam mem).2)

end

theorem inside (sends : frame.Sends env weight results extra calls code mid)
    (inner : mid.Sends env bound wider [] more last next) (fits : bound ≤ weight)
    (permitted : ∀ fam ∈ wider, frame.Permits next results fam) :
    frame.Sends env weight results extra (calls ++ more) (code ++ last) next where
  grown := sends.grown.trans inner.grown
  ordinary := inner.ordinary
  bracketed := sends.bracketed.append (inner.bracketed.widen sends.grown.depth sends.grown.covers fits
    fun fam mem => (permitted fam mem).1)
  accounts := sends.accounts.append (inner.accounts.absorb fun fam mem =>
    (permitted fam mem).2)

theorem widen (sends : frame.Sends env weight results extra calls code next)
    (permitted : ∀ fam ∈ results, frame.Permits next wider fam) :
    frame.Sends env weight wider extra calls code next where
  grown := sends.grown
  ordinary := sends.ordinary
  bracketed := sends.bracketed.widen rfl (.refl _) (Nat.le_refl _) fun fam mem =>
    (permitted fam mem).1
  accounts := sends.accounts.absorb fun fam mem => (permitted fam mem).2

theorem of_kept (kept : frame.Kept mid) (notes : Notes frame.touched mid.touched)
    (sends : mid.Sends env weight results extra calls code next) :
    frame.Sends env weight results extra calls code next where
  grown := by simpa using Grown.trans kept sends.grown
  ordinary := sends.ordinary
  bracketed := sends.bracketed.widen kept.depth kept.covers (Nat.le_refl _) fun _ => mayChange_result
  accounts := sends.accounts.of_notes notes

theorem under_push (ord : frame.Ordinary)
    (sends : (frame.push dst).Sends env weight results [] calls code next) :
    frame.Sends env weight results [] calls code next.pop where
  grown := Kept.pop sends.grown
  ordinary := ord.kept (Kept.pop sends.grown)
  bracketed := sends.bracketed.widen rfl ((Covers.refl frame).push dst) (Nat.le_refl _)
    fun _ => mayChange_result
  accounts := sends.accounts

theorem unhold (ord : frame.Ordinary)
    (sends : (frame.hold dst).Sends env weight results [] calls code next)
    (permitted : ∀ fam ∈ results, frame.Permits next wider fam) :
    frame.Sends env weight wider [] calls code (frame.unhold dst next) where
  grown := Kept.unhold sends.grown
  ordinary := ord.kept (Kept.unhold sends.grown)
  bracketed := sends.bracketed.widen hold_depth ((Covers.refl frame).hold dst) (Nat.le_refl _)
    fun fam mem => (permitted fam mem).1
  accounts := by
    have accounts := sends.accounts.absorb fun fam mem => (permitted fam mem).2
    rw [hold_touched] at accounts
    rwa [unhold_touched]

end Sends

theorem Gives.sends (gives : frame.Gives env weight calls frag next) (ord : frame.Ordinary)
    (innermost : frame.held.head? = some r) (same : r.family = dst.family) :
    frame.Sends env weight [dst.family] [] calls frag.code next where
  grown := gives.kept
  ordinary := ord.kept gives.kept
  bracketed := by
    refine gives.emits.bracketed.widen rfl (.refl _) (Nat.le_refl _) fun fam mem => ?_
    cases frag with
    | inline opnd | effect code => cases mem
    | value code src =>
      obtain rfl := List.mem_singleton.mp mem
      rcases gives.emits.1.innermost with ⟨top, head, received⟩ | unused
      · obtain rfl : r = top := Option.some.inj (innermost.symm.trans head)
        exact mayChange_result (by simp [← received, same])
      · exact .inl unused
  accounts := by
    have accounts := gives.accounts
    rwa [Frame.top, innermost, families, Option.elim_some, same] at accounts

/-- A register that work is done in: the one that was chosen, or one that nothing relies on and that
is noted. -/
structure Accepts (start next : Frame) (target register : Register) : Prop where
  ordinary : register.family.isOrdinary = true
  place : register.family = target.family ∨
    start.inUse register.family = false ∧ Excused next.touched [] register.family

theorem Accepts.permits (accepts : start.Accepts next dst r) :
    start.Permits next [dst.family] r.family := by
  rcases accepts.place with same | ⟨unused, noted⟩
  · exact .result (by simp [same])
  · exact ⟨.inl unused, noted.mono (fun _ => id) (by simp)⟩

theorem Accepts.outside (accepts : inner.Accepts next dst r) (covers : inner.Covers frame)
    (notes : Notes next.touched after.touched) : frame.Accepts after dst r :=
  ⟨accepts.ordinary, accepts.place.imp id fun ⟨unused, noted⟩ =>
    ⟨covers.unused unused, noted.later notes⟩⟩

/-- A register that was chosen for a value. It is that of the caller, or nothing relies on it and it
is noted. -/
structure Chosen (frame : Frame) (target : Register) (start : Frame) : Prop where
  kept : frame.Kept start
  receives : frame.Receives target
  notes : Notes frame.touched start.touched
  excused : Excused start.touched frame.top target.family

namespace Chosen

variable (chosen : frame.Chosen dst start)

include chosen

section

variable (sends : start.Sends env weight [r.family] [] calls code next)

include sends

theorem accounts (place : r.family = dst.family ∨ Excused next.touched [] r.family) :
    Accounts frame.touched frame.top calls code next.touched := by
  refine (sends.accounts.absorb fun fam mem => ?_).of_notes chosen.notes
  obtain rfl := List.mem_singleton.mp mem
  rcases place with same | noted
  · exact same ▸ chosen.excused.later sends.accounts.notes
  · exact noted.mono (fun _ => id) (by simp)

theorem gives (accepts : start.Accepts next dst r) :
    frame.Gives env weight calls (.value code r) next := by
  have receiving : start.Receives r := by
    rcases accepts.place with same | ⟨unused, _⟩
    · exact (chosen.receives.kept chosen.kept).congr same
    · exact ⟨accepts.ordinary, .inr unused⟩
  exact ⟨⟨chosen.kept.trans sends.grown, receiving.of_kept chosen.kept, sends.bracketed.widen
    chosen.kept.depth chosen.kept.covers (Nat.le_refl _) fun _ => mayChange_result⟩,
    chosen.accounts sends (accepts.place.imp id And.right)⟩

end

theorem gives_target (sends : start.Sends env weight [dst.family] [] calls code next) :
    frame.Gives env weight calls (.value code dst) next :=
  chosen.gives sends ⟨chosen.receives.ordinary, .inl rfl⟩

theorem loads {opnd : Operand} (ord : frame.Ordinary) :
    frame.Gives env weight [] (.value [.binary .lea (.reg dst) opnd] dst) start :=
  chosen.gives_target ((Sends.nil (ord.kept chosen.kept)).quiet
    (.binary (by decide) chosen.receives.ordinary (by simp)) fun _ => .result)

theorem gives_inline (sends : start.Sends env weight [dst.family] [] calls [] next) :
    frame.Gives env weight calls (.inline opnd) next :=
  ⟨⟨chosen.kept.trans sends.grown, trivial⟩, chosen.accounts sends (.inl rfl)⟩

end Chosen

/-- A run that gives code with its value in a register of the caller's choice. -/
structure Evaluates (frame : Frame) (env : Env) (weight : Nat) (target : Register) (code : Code)
    (next : Frame) : Prop where
  kept : frame.Kept next
  bracketed : Bracketed env frame.depth none weight (frame.mayChange [target.family]) code

/-- A run that gives an address. The registers of the address are held on top of the others, but for
a base that the caller offered. An index is held in a register of its own. -/
structure Locates (frame : Frame) (env : Env) (weight : Nat) (hint : Option Register) (code : Code)
    (located : Located) (next : Frame) : Prop where
  grown : ∃ extra, extra.length = located.held ∧ Grown extra frame next ∧
    ∀ register ∈ extra, register.family.isOrdinary = true
  index : ∀ register, located.address.index = some register →
    register.family.isOrdinary = true ∧ frame.inUse register.family = false
  plain : located.address.inRegisters = false → located.held = 0
  bracketed : Bracketed env frame.depth none weight
    (frame.mayChange (hint.elim [] fun register => [register.family])) code

/-- Its code is accounted for as well, and makes these calls. There is none for a plain frame slot. -/
structure Addresses (frame : Frame) (env : Env) (weight : Nat) (hint : Option Register)
    (calls : List (Option String)) (code : Code) (located : Located) (next : Frame) : Prop where
  sends : ∃ extra, extra.length = located.held ∧
    frame.Sends env weight (families hint) extra calls code next
  index : ∀ register, located.address.index = some register →
    register.family.isOrdinary = true ∧ frame.inUse register.family = false ∧
      Excused next.touched [] register.family
  plain : located.address.inRegisters = false → code = [] ∧ located.held = 0

variable {hint : Option Register} {located : Located}

theorem Addresses.locates (addresses : frame.Addresses env weight hint calls code located next) :
    frame.Locates env weight hint code located next := by
  obtain ⟨extra, length, sends⟩ := addresses.sends
  refine ⟨⟨extra, length, sends.grown, fun r mem => sends.ordinary r ?_⟩,
    fun r indexed => ?_, fun plain => (addresses.plain plain).2, sends.bracketed⟩
  · rw [sends.grown.held]
    exact List.mem_append_left _ mem
  · obtain ⟨usable, unused, _⟩ := addresses.index r indexed
    exact ⟨usable, unused⟩

/-- The register that a caller offers for a base is in use and one to compute with. -/
def Offers (frame : Frame) (hint : Option Register) : Prop :=
  ∀ register, hint = some register →
    register.family.isOrdinary = true ∧ frame.inUse register.family = true

end Frame

/-- Registers come from the innermost one held, or they are noted. -/
theorem destination_chosen (ordinary : frame.Ordinary)
    (run : Yields (destination pos ty) env frame dst start) : frame.Chosen dst start := by
  obtain ⟨kept, receives, _⟩ := destination_receives ordinary run
  rcases yields_destination.mp run with ⟨top, innermost, _, rfl, rfl⟩ | ⟨_, found, rfl⟩
  · exact ⟨kept, receives, .refl _, .result (by simp [Frame.top, families, innermost])⟩
  · exact ⟨kept, receives, .touch _ _, .touched _ _⟩

/-- Every run gives a fragment with code that is bracketed and accounted for. -/
def Orderly (env : Env) (weight : Nat) (calls : List (Option String)) (x : Lower Lowered) : Prop :=
  ∀ ⦃frame fragment next⦄, frame.Ordinary → Yields x env frame fragment next →
    frame.Gives env weight calls fragment next

def Findable (env : Env) (weight : Nat) (calls : List (Option String))
    (place : Option Register → Lower (Code × Located)) : Prop :=
  ∀ ⦃hint frame code located next⦄, frame.Ordinary → frame.Offers hint →
    Yields (place hint) env frame (code, located) next →
    frame.Addresses env weight hint calls code located next

theorem settle_code (frag : Lowered) (usable : dst.family.isOrdinary = true) :
    ∃ last, Quiet [dst.family] last ∧ (settle frag dst).code = frag.code ++ last := by
  cases frag with
  | inline opnd => exact ⟨_, move_quiet opnd usable, rfl⟩
  | value code src =>
    simp only [settle]
    split
    · exact ⟨[], .nil, (List.append_nil _).symm⟩
    · exact ⟨_, moveRegister_quiet usable, rfl⟩
  | effect code => exact ⟨[], .nil, (List.append_nil _).symm⟩

theorem settle_sends (usable : dst.family.isOrdinary = true)
    (sends : frame.Sends env weight [dst.family] [] calls frag.code next) :
    frame.Sends env weight [dst.family] [] calls (settle frag dst).code next := by
  obtain ⟨last, quiet, same⟩ := settle_code frag usable
  exact same ▸ sends.quiet quiet fun _ => .result

theorem workFor_accepts (weight : Nat) (results : List Family) (ord : frame.Ordinary)
    (usable : dst.family.isOrdinary = true) (run : Yields (workFor pos dst ty) env frame r next) :
    frame.Sends env weight results [] [] [] next ∧ frame.Accepts next dst r := by
  rcases yields_workFor.mp run with ⟨_, rfl, rfl⟩ | ⟨_, found, rfl⟩
  · exact ⟨.nil ord, usable, .inl rfl⟩
  · have fresh := Frame.free_fresh found
    exact ⟨(Frame.Sends.nil ord).touch _, fresh.ordinary, .inr ⟨fresh.unused, .touched _ _⟩⟩

end Lower

open Lower

namespace Lowering

variable {node : Lowering} {env : Env} {frame next : Frame} {weight : Nat}
  {calls : List (Option String)} {code : Code} {frag : Lowered} {dst : Register}

/-- Whatever is asked of a node, its code is bracketed and accounted for. -/
structure Orderly (node : Lowering) (env : Env) (weight : Nat) (calls : List (Option String)) :
    Prop where
  value : Lower.Orderly env weight calls node.value
  nested : Lower.Orderly env weight calls node.nested
  place : Findable env weight calls node.place

theorem Orderly.mono (orderly : node.Orderly env weight calls) (heavier : weight ≤ more) :
    node.Orderly env more calls := by
  have lifts : ∀ {x}, Lower.Orderly env weight calls x → Lower.Orderly env more calls x := by
    intro x orderly frame frag next ord run
    have gives := orderly ord run
    exact ⟨⟨gives.kept, gives.emits.mono heavier⟩, gives.accounts⟩
  refine ⟨lifts orderly.value, lifts orderly.nested, fun hint frame code located next ord offers
    run => ?_⟩
  have addresses := orderly.place ord offers run
  obtain ⟨extra, length, sends⟩ := addresses.sends
  exact ⟨⟨extra, length, sends.grown, sends.ordinary,
    sends.bracketed.mono heavier fun _ changed => changed, sends.accounts⟩, addresses.index,
    addresses.plain⟩

theorem Orderly.into_sends (orderly : node.Orderly env weight calls) (ord : frame.Ordinary)
    (run : Yields (node.into dst) env frame code next) (usable : dst.family.isOrdinary = true) :
    frame.Sends env weight [dst.family] [] calls code next := by
  obtain ⟨_, inner, after, valued, _, rfl, rfl⟩ := yields_into.mp run
  exact settle_sends usable (((orderly.value (ord.push usable) valued).sends (ord.push usable)
    rfl rfl).under_push ord)

theorem Orderly.then_into (orderly : node.Orderly env bound more)
    (sends : frame.Sends env weight results extra calls code mid) (fits : bound ≤ weight)
    (run : Yields (node.into dst) env mid last next) (usable : dst.family.isOrdinary = true)
    (permits : frame.Permits mid results dst.family) :
    frame.Sends env weight results extra (calls ++ more) (code ++ last) next ∧
      Notes mid.touched next.touched := by
  have evaluates := orderly.into_sends sends.ordinary run usable
  have notes := evaluates.accounts.notes
  exact ⟨sends.inside evaluates fits (by simpa using permits.later notes), notes⟩

def Brackets (node : Lowering) (env : Env) (weight : Nat) : Prop :=
  ∃ calls, node.Orderly env weight calls

theorem Brackets.mono (brackets : node.Brackets env weight) (heavier : weight ≤ more) :
    node.Brackets env more := brackets.imp fun _ orderly => orderly.mono heavier

section

variable (brackets : node.Brackets env weight) (ord : frame.Ordinary)

include brackets ord

theorem Brackets.value
    (run : Yields node.value env frame frag next) : frame.Produces env weight frag next :=
  brackets.elim fun _ orderly => (orderly.value ord run).toProduces

theorem Brackets.place (offers : frame.Offers hint)
    (run : Yields (node.place hint) env frame (code, located) next) :
    frame.Locates env weight hint code located next :=
  brackets.elim fun _ orderly => (orderly.place ord offers run).locates

theorem Brackets.into_evaluates (run : Yields (node.into dst) env frame code next)
    (usable : dst.family.isOrdinary = true) : frame.Evaluates env weight dst code next :=
  brackets.elim fun _ orderly =>
    have sends := orderly.into_sends ord run usable
    ⟨sends.grown, sends.bracketed⟩

end

section

variable (place : Findable env weight calls node.place)

include place

/-- What computing an address for a target leaves behind, once its registers are given up. -/
theorem place_sends {hint : Option Register} {located : Located} {start after : Frame}
    (ord : start.Ordinary) (usable : dst.family.isOrdinary = true)
    (offers : ∀ r, hint = some r → r.family = dst.family)
    (run : Yields (node.place hint) env (start.hold dst) (code, located) after) :
    start.Sends env weight [dst.family] [] calls code
        (start.unhold dst { after with held := after.held.drop located.held }) ∧
      (located.address.inRegisters = false →
        code = [] ∧ { after with held := after.held.drop located.held } = after) := by
  have addresses := place (ord.hold usable) (fun r given => by
    rw [offers r given]
    exact ⟨usable, Frame.hold_inUse⟩) run
  obtain ⟨extra, length, sends⟩ := addresses.sends
  refine ⟨?_, fun plain => ?_⟩
  · rw [← length]
    refine sends.drop.unhold ord fun fam mem => .result ?_
    cases hint with
    | none => cases mem
    | some r =>
      obtain rfl := List.mem_singleton.mp mem
      exact List.mem_singleton.mpr (offers r rfl)
  · obtain ⟨nothing, none⟩ := addresses.plain plain
    exact ⟨nothing, by rw [none, List.drop_zero]⟩

theorem address_orderly : Lower.Orderly env weight calls node.address := by
  intro frame frag next ordinary run
  obtain ⟨dst, start, run, code, located, after, placed, outcome⟩ := yields_address run
  have chosen := destination_chosen ordinary run
  obtain ⟨sends, plain⟩ := place_sends place (ordinary.kept chosen.kept) chosen.receives.ordinary
    (by rintro _ ⟨⟩; rfl) placed
  rcases outcome with ⟨outside, rfl, rfl⟩ | ⟨_, rfl, rfl⟩
  · obtain ⟨rfl, same⟩ := plain outside
    rw [same] at sends
    exact chosen.gives_inline sends
  · have loading : Quiet [dst.family] (if isDirect located.address dst then ([] : Code)
        else [.lea dst located.address]) := by
      split
      · exact .nil
      · exact .binary (by decide) chosen.receives.ordinary (by simp)
    exact chosen.gives_target (sends.quiet loading fun _ => .result)

theorem decay_orderly : Lower.Orderly env weight calls node.decay := by
  intro frame frag next ord run
  obtain ⟨inner, mid, addressed, outcome⟩ := yields_decay run
  have gives := address_orderly place ord addressed
  rcases outcome with ⟨opnd, dst, rfl, given, rfl⟩ | ⟨_, rfl, rfl⟩
  · have started := ord.kept gives.kept
    obtain rfl : [] = calls := gives.accounts.callees
    exact .of_kept gives.kept gives.accounts.notes ((destination_chosen started given).loads started)
  · exact gives

theorem load_orderly : Lower.Orderly env weight calls node.load := by
  intro frame frag next ordinary run
  rcases yields_load run with ⟨_, decayed⟩ | ⟨_, _, dst, start, run, code, located, after, placed,
    outcome⟩
  · exact decay_orderly place ordinary decayed
  have chosen := destination_chosen ordinary run
  have offers : ∀ r, baseHint dst = some r → r.family = dst.family := by
    intro r offered
    unfold baseHint at offered
    split at offered <;> cases offered
    rfl
  obtain ⟨sends, plain⟩ := place_sends place (ordinary.kept chosen.kept) chosen.receives.ordinary offers
    placed
  rcases outcome with ⟨outside, rfl, rfl⟩ | ⟨_, rfl, rfl⟩
  · obtain ⟨rfl, same⟩ := plain outside
    rw [same] at sends
    exact chosen.gives_inline sends
  · exact chosen.gives_target (sends.quiet (move_quiet _ chosen.receives.ordinary) fun _ => .result)

end

theorem Brackets.address_produces (brackets : node.Brackets env weight) (ord : frame.Ordinary)
    (run : Yields node.address env frame frag next) : frame.Produces env weight frag next :=
  brackets.elim fun _ orderly => (address_orderly orderly.place ord run).toProduces

/-- An address is never left in a float register. -/
theorem address_general (ord : frame.Ordinary)
    (run : Yields node.address env frame (.value code r) next) : r.isFloat = false := by
  obtain ⟨dst, start, chosen, _, _, _, _, ⟨_, same, _⟩ | ⟨_, same, _⟩⟩ := yields_address run
  · cases same
  · cases same
    exact (destination_receives ord chosen).2.2.1

end Lowering
end Nasm64
