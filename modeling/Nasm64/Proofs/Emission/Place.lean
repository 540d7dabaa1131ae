import Nasm64.Proofs.Emission.Node

/-! The emission of addresses. -/
namespace Nasm64.Lower

variable {env : Env} {frame next : Frame} {weight : Nat} {calls more : List (Option String)}
  {code : Code} {located : Located} {hint : Option Register}

theorem placeVariable_findable (pos : Position) (name : String) :
    Findable env weight [] fun _ => placeVariable pos name := by
  intro hint frame code located next ord offers run
  obtain ⟨slot, _, rfl, same⟩ := yields_placeVariable.mp run
  cases same
  exact ⟨⟨[], rfl, (Frame.Sends.nil ord).silent ((Frame.Kept.refl _).refer slot)
    (.of_eq Frame.refer_touched)⟩, by simp [Address.frameSlot], by simp⟩

theorem inRegisters_of_ordinary (ord : r.family.isOrdinary = true) :
    Address.inRegisters ⟨.reg r, disp, idx⟩ = true := by
  unfold Address.inRegisters
  have other : r ≠ .framePointer := by
    rintro rfl
    cases ord
  simp [other]

theorem placePointer_findable (orderly : ptr.Orderly env weight calls) :
    Findable env weight calls (placePointer ptr) := by
  intro hint frame code located next ord offers run
  have based : ∀ {r : Register}, r.family.isOrdinary = true →
      Address.inRegisters { base := .reg (r.resize 8) } = true :=
    fun usable => inRegisters_of_ordinary usable
  rcases yields_placePointer run with ⟨r, _, found, evaluated, same⟩ |
    ⟨r, _, _, found, evaluated, same⟩
  · cases same
    have given : hint = some r := (Option.filter_eq_some_iff.mp found).1
    have usable := (offers r given).1
    have evaluates := orderly.into_sends ord evaluated usable
    refine ⟨⟨[], rfl, ?_⟩, by simp, by simp [based usable]⟩
    simpa [given, families] using evaluates
  · cases same
    have fresh := Frame.free_fresh found
    have started : frame.Sends env weight [] [r] [] []
      ((frame.touch r.family).push r) :=
        ((Frame.Sends.nil ord).touch _).push fresh.ordinary
    obtain ⟨evaluates, _⟩ := orderly.then_into (started.widen (by simp)) (Nat.le_refl _) evaluated
      fresh.ordinary (.fresh fresh.unused)
    exact ⟨⟨[r], rfl, evaluates⟩, by simp, by simp [based fresh.ordinary]⟩

theorem addIndex_addresses (orderly : subscript.Orderly env weight more)
    (addresses : frame.Addresses env weight hint calls base start mid)
    (run : Yields (addIndex start subscript elementSize) env mid (code, located) next) :
    frame.Addresses env weight hint (calls ++ more) (base ++ code) located next := by
  obtain ⟨r, found, evaluation, after, evaluated, outcome⟩ := yields_addIndex run
  obtain ⟨extra, length, sends⟩ := addresses.sends
  have fresh := Frame.free_fresh found
  have unused : frame.inUse r.family = false := sends.grown.covers.unused fresh.unused
  obtain ⟨evaluates, notes⟩ := orderly.then_into ((sends.touch r.family).push fresh.ordinary)
    (Nat.le_refl _) evaluated fresh.ordinary (.fresh unused)
  have noted : ∀ {results}, frame.Permits after results r.family :=
    (Frame.Permits.fresh unused).later notes
  have indexing := evaluates.quiet (indexCode_quiet subscript.type elementSize fresh.ordinary)
    (by simpa using noted)
  rw [List.append_assoc] at indexing
  rcases outcome with ⟨_, rfl, same⟩ | ⟨idx, indexed, rfl, same⟩
  · cases same
    refine ⟨⟨r :: extra, by simp [length], indexing⟩, ?_, by simp [Address.inRegisters]⟩
    rintro _ ⟨⟩
    exact ⟨fresh.ordinary, unused, noted.2⟩
  · cases same
    obtain ⟨usable, free, held⟩ := addresses.index idx indexed
    have adding : Quiet [idx.family] [.binary .add (.reg idx) (.reg r)] :=
      .binary (by decide) usable (by simp)
    have later := held.later ((Notes.touch mid r.family).trans notes)
    have added := indexing.quiet adding (by
      simpa using ⟨.inl free, later.mono (fun _ => id) (by simp)⟩)
    refine ⟨⟨extra, length, ?_⟩, fun other given => ?_, fun plain => ?_⟩
    · simpa using added.pop
    · obtain rfl : idx = other := by simpa [indexed] using given
      exact ⟨usable, free, later⟩
    · simp [Address.inRegisters, indexed] at plain

theorem placeBase_findable (orderly : base.Orderly env weight calls) :
    Findable env weight calls (placeBase base) := by
  intro hint frame code located next ord offers run
  unfold placeBase at run
  split at run
  · exact placePointer_findable orderly ord offers run
  · exact orderly.place ord offers run

theorem placeBase_locates (brackets : base.Brackets env weight) (ord : frame.Ordinary)
    (offers : frame.Offers hint)
    (run : Yields (placeBase base hint) env frame (code, located) next) :
    frame.Locates env weight hint code located next :=
  brackets.elim fun _ orderly => (placeBase_findable orderly ord offers run).locates

theorem Frame.Addresses.advance (addresses : frame.Addresses env weight hint calls code located next)
    (bytes : Int64) : frame.Addresses env weight hint calls code
      { located with address := located.address.advance bytes } next :=
  ⟨addresses.sends, addresses.index, addresses.plain⟩

/-- A constant subscript is not evaluated, so it must not call anything. -/
theorem placeElement_findable (bases : base.Orderly env weight calls)
    (subscripts : subscript.Orderly env weight more) (free : const.isSome → more = []) :
    Findable env weight (calls ++ more) (placeElement pos base subscript const) := by
  intro hint frame code located next ord offers run
  obtain ⟨_, _, before, start, mid, placed, outcome⟩ := yields_placeElement run
  have addresses := placeBase_findable bases ord offers placed
  rcases outcome with ⟨idx, known, rfl, same⟩ | ⟨_, indexing, outer, indexed, same⟩
  · cases same
    rw [free (by simp [known]), List.append_nil]
    exact addresses.advance _
  · cases same
    exact addIndex_addresses subscripts addresses indexed

theorem placeMember_findable (orderly : base.Orderly env weight calls) :
    Findable env weight calls (placeMember pos base field) := by
  intro hint frame code located next ord offers run
  obtain ⟨before, start, placed, found, _, same⟩ := yields_placeMember run
  cases same
  exact (placeBase_findable orderly ord offers placed).advance _

end Nasm64.Lower
