import Nasm64.Proofs.Passing.CallSite
import Nasm64.Proofs.Passing.Entry

/-! Caller and callee agree on where arguments are: what the caller evaluates is what the callee finds
in the slots of its parameters. -/
namespace Nasm64

open Lower

namespace Ty

def Alike (left right : Ty) : Prop :=
  left.isFloat = right.isFloat ∧ left.registerSize = right.registerSize

theorem primitive_name_injective :
    ∀ left right : Primitive, left.name = right.name → left = right := by
  intro left right
  cases left <;> cases right <;> decide

theorem name_ne_pointer (prim : Primitive) (text : String) : prim.name ≠ "*" ++ text := by
  intro same
  have letters := congrArg (fun text => text.toList.head?) same
  rw [String.toList_append] at letters
  cases prim <;> cases letters

/-- A type that is spelled like a scalar is alike, unless it is a struct of that name. -/
theorem alike_of_same {left right : Ty} (scalar : left.isScalar = true)
    (decayed : right.decay = right) (plain : right.isStruct = false)
    (same : left.same right = true) :
    right.Alike left := by
  have same : left.text = right.text := eq_of_beq same
  cases left with
  | prim primitive =>
    cases right with
    | prim other => exact (primitive_name_injective _ _ same) ▸ ⟨rfl, rfl⟩
    | void => cases primitive <;> exact absurd same (by decide)
    | pointer dst => exact absurd same (name_ne_pointer _ _)
    | array length element => cases decayed
    | struct name fields => cases plain
  | pointer dst =>
    cases right with
    | prim other => exact absurd same.symm (name_ne_pointer _ _)
    | void =>
      have letters := congrArg (fun text => text.toList.head?) same
      simp only [text, String.toList_append] at letters
      cases letters
    | pointer other => exact ⟨rfl, rfl⟩
    | array length element => cases decayed
    | struct name fields => cases plain
  | _ => cases scalar

end Ty

theorem Machine.argument_congr (m : Machine) (area : BitVec 64) (i : Nat)
    (alike : left.Alike right) :
    m.argument area i left = m.argument area i right := by
  simp only [argument, Lane.register, alike.1, alike.2]

theorem SymbolTable.accepts_of_lookup {table : SymbolTable} {sig : Signature}
    (found : table.lookup name types = .ok sig) : sig.accepts types = true := by
  unfold lookup at found
  dsimp only at found
  split at found
  · cases found
  · split at found
    · cases found
    · rename_i only
      cases found
      have mem : sig ∈ (table.candidates name).filter fun sig =>
        sig.accepts types := only ▸ List.mem_singleton_self _
      exact (List.mem_filter.mp mem).2
    · cases found

namespace Signature

variable {sig : Signature} {types : List Ty}

theorem length_le_of_accepts (accepts : sig.accepts types = true) :
    sig.parameters.length ≤ types.length := by
  simp only [Signature.accepts, Bool.and_eq_true] at accepts
  have enough := accepts.1
  split at enough
  · exact of_decide_eq_true enough
  · exact Nat.le_of_eq (eq_of_beq (of_decide_eq_true enough))

theorem argumentTypes_alike {i : Nat} {param src ty : Ty} (accepts : sig.accepts types = true)
    (listed : sig.parameters[i]? = some param) (given : types[i]? = some src)
    (plain : src.isStruct = false) (scalar : param.decay.isScalar = true)
    (travels : (sig.argumentTypes types)[i]? = some ty) : ty.Alike param.decay := by
  have within : i < sig.parameters.length := (List.getElem?_eq_some_iff.mp listed).1
  have same : param.decay.same src.decay = true := by
    simp only [Signature.accepts, Bool.and_eq_true, List.all_eq_true] at accepts
    have zipped : (sig.parameters.zip types)[i]? = some (param, src) :=
      List.getElem?_zip_eq_some.mpr ⟨listed, given⟩
    exact accepts.2 _ (List.mem_of_getElem? zipped)
  rw [argumentTypes_getElem?, given, Option.map_some] at travels
  have decayed : ty = src.decay := by
    have inner : ¬ sig.parameters.length ≤ i := by omega
    simpa [inner] using travels.symm
  rw [decayed]
  refine Ty.alike_of_same scalar (Ty.decay_decay _) ?_ same
  cases src <;> first | rfl | cases plain

end Signature

/-- Inside the callee, the slots of its parameters hold what the arguments were evaluated to, which is
what is at their places at the call. -/
def CallSite.Delivers (site : CallSite) (world : World) (homes : List Variable)
    (machine atCall inside : Machine) : Prop :=
  ∀ before staging after home, site.stagings = before ++ staging :: after →
    homes[before.length]? = some home →
    ∃ evaluated, machine.run world (site.reaching before staging) = some evaluated ∧
      atCall.argument (atCall.reg .rsp) before.length home.type = evaluated.view staging.register ∧
      inside.memory.load (inside.address world (.frameSlot home.offset))
        home.type.registerSize.toNat = evaluated.view staging.register

namespace Lower

variable {env : Env} {frame next : Frame}

/-- The stagings of a call travel like the parameters of the method that it means. -/
theorem lowerCall_alike {pos : Position} {name : String} {args : List Lowering} {frag : Lowered}
    {callee : Method} {homes : List Variable} {start : Int64}
    (found : env.table.lookup name (args.map Lowering.type) = .ok callee.signature)
    (run : Yields (lowerCall pos name args) env frame frag next)
    (hold : Hold start callee.parameters homes) {i : Nat} {home : Variable} {ty : Ty}
    (listed : homes[i]? = some home)
    (travels : (callee.signature.argumentTypes (args.map Lowering.type))[i]? = some ty) :
    ty.Alike home.type := by
  obtain ⟨_, _, plain, _⟩ := yields_lowerCall run
  have accepts := SymbolTable.accepts_of_lookup found
  obtain ⟨param, stated, typed⟩ : ∃ param, callee.parameters[i]? = some param ∧
      param.type.decay = home.type := by
    have types := congrArg (·[i]?) hold.types
    simp only [List.getElem?_map, listed, Option.map_some] at types
    exact Option.map_eq_some_iff.mp types.symm
  have declared : callee.signature.parameters[i]? = some param.type := by
    simp [Method.signature, stated]
  have fewer := Signature.length_le_of_accepts accepts
  have within : i < callee.signature.parameters.length := (List.getElem?_eq_some_iff.mp declared).1
  have given : i < args.length := by
    rw [List.length_map] at fewer
    omega
  have scalar : param.type.decay.isScalar = true :=
    typed ▸ hold.scalar home (List.mem_of_getElem? listed)
  rw [← typed]
  exact Signature.argumentTypes_alike accepts declared
    (by rw [List.getElem?_map, List.getElem?_eq_getElem given]; rfl)
    (plain _ (List.getElem_mem given)) scalar travels

end Lower

/-- A call and a method that it means, with the parts of both. The method begins with its entry code
and the copies of its parameters, whose names stand for the slots. When the machine comes to the call
and there is room for the frame, entering the method delivers the arguments. -/
structure Agreement (env inner : Env) (arguments : List Expr) (callee : Method) (call code : Code)
    (site : CallSite) (size : Int64) (saved : List SavedSlot) (parameters : Code)
    (homes : List Variable) : Prop where
  calls : site.code = call
  named : site.label = callee.signature.label
  begins : entryCode site.label size saved ++ parameters <+: code
  scope : ∃ entry, Yields (lowerParameters callee.name 0 callee.parameters) inner {} parameters entry ∧
    entry.scope.reverse = (callee.parameters.map Parameter.name).zip homes
  types : homes.map Variable.type = callee.parameters.map fun parameter => parameter.type.decay
  staged : site.stagings.length = arguments.length
  enough : homes.length ≤ site.stagings.length
  carries : ∀ (index : Nat) (staging : Staging), site.stagings[index]? = some staging →
    staging.index = index ∧
      ∃ argument, arguments[index]? = some argument ∧ staging.Carries env argument.lowering
  passes : ∀ world machine, machine.Clear call → site.Passes world machine
  delivers : ∀ world machine atCall, machine.Clear call → machine.run world site.setup = some atCall →
    size.toInt + 16 ≤ atCall.room → ∀ upper back, ∃ inside,
      atCall.entered world upper back (entryCode site.label size saved ++ parameters) = some inside ∧
        inside.reg .rbp = atCall.reg .rsp - 16 ∧ site.Delivers world homes machine atCall inside

/-- Every call to a method of the program agrees with the method, at a positive alignment, as long as
the depth of the stack is a word and the frame of the method stays inside exact arithmetic. -/
theorem arguments_agree {env inner : Env} {frame next last : Frame} {position : Position}
    {name : String} {arguments : List Expr} {result : Ty} {fragment : Lowered} {callee : Method}
    {code : Code}
    (positive : 0 < env.stackAlignment) (natural : 0 ≤ frame.depth) (ordinary : frame.Ordinary)
    (bound : frame.depth.toInt + (Expr.call position name arguments result).burden env < 2 ^ 63)
    (found : env.table.lookup name (arguments.map Expr.type) = .ok callee.signature)
    (internal : callee.isExternal = false)
    (run : Yields (Expr.call position name arguments result).lowering.value env frame fragment next)
    (own : inner.signature = callee.signature) (lowered : Yields callee.lower inner {} code last)
    (aligned : 0 < inner.stackAlignment) (shadowed : 0 ≤ inner.shadowSpace)
    (small : callee.extent last + inner.shadowSpace.toInt < 2 ^ 62)
    (fits : Word.leastPower (callee.extent last + inner.shadowSpace.toInt) +
      inner.stackAlignment.toInt ≤ 2 ^ 63) :
    ∃ site size saved parameters homes,
      Agreement env inner arguments callee fragment.code code site size saved parameters homes := by
  have lowering : (Expr.call position name arguments result).lowering.value =
      lowerCall position name (arguments.map Expr.lowering) := by
    rw [← Expr.lowerings_eq_map]
    rfl
  rw [lowering] at run
  have types : (arguments.map Expr.lowering).map Lowering.type = arguments.map Expr.type := by
    simp
  rw [← types] at found
  have positive := Int64.lt_iff_toInt_lt.mp positive
  have natural := Int64.le_iff_toInt_le.mp natural
  have brackets : ∀ argument ∈ arguments.map Expr.lowering,
      argument.Brackets env (Expr.burdens env arguments) := by
    intro argument member
    obtain ⟨expr, listed, rfl⟩ := List.mem_map.mp member
    exact (expr.lowering_brackets env).mono (Expr.burden_le_burdens listed)
  have weight : Expr.burdens env arguments + env.areaBound (arguments.map Expr.lowering).length + 104 ≤
      (Expr.call position name arguments result).burden env := by
    rw [List.length_map, Expr.burden]
  obtain ⟨site, same, label, counted, each, passes⟩ := lowerCall_passes positive natural bound weight
    brackets ordinary found internal run
  obtain ⟨slots, saved, size, body, after, built⟩ := Method.lower_built lowered
  obtain ⟨parameters, entry, skeleton, copies, _, split, _⟩ := Method.lowerBody_traces built.lowered
  obtain ⟨homes, hold, copied, scope⟩ := yields_lowerParameters copies
  have count : homes.length = callee.parameters.length := by
    simpa using congrArg List.length hold.types
  have fewer : callee.parameters.length ≤ arguments.length := by
    simpa [Method.signature] using
      Signature.length_le_of_accepts (SymbolTable.accepts_of_lookup found)
  rw [List.length_map] at counted
  refine ⟨site, size, saved, parameters, homes, same, label, ?_, ⟨entry, copies, by simp [scope]⟩,
    hold.types, counted, by omega, fun index staging listed => ?_, passes,
    fun world machine atCall clear ran room upper back => ?_⟩
  · rw [built.surrounds, surround_eq, split, label, own, List.append_assoc, ← List.append_assoc]
    exact List.prefix_append _ _
  · obtain ⟨indexed, _, argument, given, carries⟩ := each index staging listed
    rw [List.getElem?_map] at given
    obtain ⟨expr, taken, rfl⟩ := Option.map_eq_some_iff.mp given
    exact ⟨indexed, expr, taken, carries⟩
  · have area := (passes world machine clear).area atCall ran
    obtain ⟨inside, entered, base, holds⟩ := built.receives hold copied
      (Int64.lt_iff_toInt_lt.mp aligned) (Int64.le_iff_toInt_le.mp shadowed) small fits world upper
      back room (by omega)
    rw [own, ← label] at entered
    refine ⟨inside, entered, base, fun before staging after home parts listed => ?_⟩
    obtain ⟨evaluated, reached, arrives⟩ :=
      (passes world machine clear).arrives before staging after atCall parts ran
    obtain ⟨indexed, travels, _⟩ := each before.length staging (by simp [parts])
    have alike := lowerCall_alike found run hold listed travels
    rw [indexed, atCall.argument_congr _ _ alike] at arrives
    exact ⟨evaluated, reached, arrives, (holds before.length home listed).trans arrives⟩

/-- A method with parameters of all kinds, the last of them on the stack. -/
def mixedMethod : Method :=
  let last : Expr := .ident {} "e" (.prim .i64)
  let sum (left right : Expr) : Expr := .binary {} .add left right (.prim .i64)
  { position := {}
    name := "g"
    parameters := [⟨"a", .prim .i64⟩, ⟨"b", .prim .f64⟩, ⟨"c", .array 3 (.prim .i64)⟩,
      ⟨"d", .prim .u8⟩, ⟨"e", .prim .i64⟩]
    result := .prim .i64
    body := some [.returning {} (some (sum (sum last last) (sum last last)))]
    isVariadic := false }

/-- Arguments for it, the last of them a call. -/
def mixedArguments : List Expr :=
  [.number {} 7 (.prim .i64), .ident {} "x" (.prim .f64), .ident {} "y" (.array 3 (.prim .i64)),
    .number {} 4 (.prim .u8), .call {} "h" [.number {} 9 (.prim .i64)] (.prim .i64)]

def Lower.Env.mixed (method : Int) (signature : Signature) : Env where
  method := method
  signature := signature
  table := ⟨[mixedMethod.signature, ⟨"h", [.prim .i64], .prim .i64, false, false⟩]⟩
  settings := some {}

def Lower.Frame.mixed : Frame where
  scope := [("y", ⟨32, 8, 3, .array 3 (.prim .i64)⟩), ("x", ⟨8, 8, 1, .prim .f64⟩)]
  position := 32

theorem arguments_agree_mixed :
    let env : Env := .mixed 0 ⟨"main", [], .void, false, false⟩
    let inner : Env := .mixed 1 mixedMethod.signature
    ∃ fragment next code last,
      Yields (Expr.call {} "g" mixedArguments (.prim .i64)).lowering.value env .mixed fragment next ∧
      Yields mixedMethod.lower inner {} code last ∧ last.savedFamilies = [.rdi] ∧
      ∃ site size saved parameters homes, Agreement env inner mixedArguments mixedMethod fragment.code
        code site size saved parameters homes := by
  intro env inner
  obtain ⟨fragment, next, run, _⟩ := Yields.of_check
    (Expr.call {} "g" mixedArguments (.prim .i64)).lowering.value env .mixed (fun _ => true)
    (by decide +kernel)
  obtain ⟨_, _, fits, rfl⟩ := Yields.of_check mixedMethod.frameFits inner {} id (by decide +kernel)
  obtain ⟨code, last, lowered⟩ := Method.lower_of_frameFits rfl fits
  have families : last.savedFamilies = [.rdi] :=
    Method.savedFamilies_eq lowered (Yields.of_check mixedMethod.lowerBodyNoting inner {}
      (fun noted => noted.2 == [.rdi]) (by decide +kernel)) (by decide)
  have extent : mixedMethod.extent last = 48 := by
    rw [Method.extent, families]
    decide +kernel
  have found : env.table.lookup "g" (mixedArguments.map Expr.type) = .ok mixedMethod.signature :=
    rfl
  refine ⟨fragment, next, code, last, run, lowered, families, ?_⟩
  exact arguments_agree (by decide) (by decide) (by simp [Frame.Ordinary, Frame.mixed])
    (by decide +kernel) found rfl run rfl lowered (by decide) (by decide) (by rw [extent]; decide)
    (by rw [extent]; decide +kernel)

/-- A call whose second argument is a call with five arguments. -/
def nestedCall : Expr :=
  let number (value : Int64) : Expr := .number {} value (.prim .i64)
  .call {} "f" [number 7, .call {} "g" [number 1, number 2, number 3, number 4, number 5] (.prim .i64)]
    (.prim .i64)

def Lower.Env.nestedAlignedTo (alignment : Int64) : Env where
  method := 0
  signature := ⟨"main", [], .void, false, false⟩
  table := ⟨[⟨"f", List.replicate 2 (.prim .i64), .prim .i64, false, false⟩,
    ⟨"g", List.replicate 5 (.prim .i64), .prim .i64, false, false⟩]⟩
  settings := some { stackAlignment := alignment }

/-- A world whose callees do nothing, and a machine with room on its stack. -/
def World.still : World :=
  ⟨fun _ => 0, fun _ _ _ => default, fun _ _ right => right, fun _ machine => machine⟩

def Machine.spacious : Machine :=
  ⟨fun family => if family = .rsp then 4096 else 0, fun _ => 0, default, 0, []⟩

/-- A method with so large variables that the slot of a saved register is the place of the fifth
argument. -/
def crampedMethod : Method :=
  let last : Expr := .ident {} "e" (.prim .i64)
  let sum (left right : Expr) : Expr := .binary {} .add left right (.prim .i64)
  { position := {}
    name := "g"
    parameters := ["a", "b", "c", "d", "e"].map (⟨·, .prim .i64⟩)
    result := .prim .i64
    body := some [.declaration {} "p" (.array 9223372036854775807 (.prim .u8)) none,
      .declaration {} "q" (.array 9223372036854775705 (.prim .u8)) none,
      .returning {} (some (sum (sum last last) (sum last last)))]
    isVariadic := false }

/-- At an alignment of -16 the area of the inner call is too small, and its third argument takes the
place of the first one of the outer call. A method whose slots exceed all bounds saves a register at the
place of an argument before it reads that argument. -/
theorem staged_argument_overwritten :
    (∃ fragment next setup closing,
      Yields nestedCall.lowering.value (.nestedAlignedTo (-16)) {} fragment next ∧
      fragment.code = setup ++ .call ".f_i64_i64~i64" :: closing ∧
      (Machine.run .still setup .spacious).map
        (fun atCall => atCall.argument (atCall.reg .rsp) 0 (.prim .i64)) = some 3) ∧
    ∃ output, crampedMethod.generate ⟨[crampedMethod.signature]⟩ {} 0 = .ok output ∧
      [SavedSlot.save ⟨⟨.rdi, 8⟩, -48⟩, .mov (.reg .scratch) (.mem 8 (.frameSlot (-48)))].Sublist
        output.code := by
  refine ⟨?_, ?_⟩
  rotate_left
  · obtain ⟨output, generated, lost⟩ := Attempt.exists_ok
      (crampedMethod.generate ⟨[crampedMethod.signature]⟩ {} 0) (fun output => decide
        ([SavedSlot.save ⟨⟨.rdi, 8⟩, -48⟩, .mov (.reg .scratch) (.mem 8 (.frameSlot (-48)))].Sublist
          output.code)) (by decide +kernel)
    exact ⟨output, generated, of_decide_eq_true lost⟩
  obtain ⟨fragment, next, run, checked⟩ := Yields.of_check nestedCall.lowering.value
    (.nestedAlignedTo (-16)) {} (fun fragment =>
      decide (fragment.code = fragment.code.take 23 ++
        .call ".f_i64_i64~i64" :: fragment.code.drop 24) &&
      decide ((Machine.run .still (fragment.code.take 23) .spacious).map
        (fun atCall => atCall.argument (atCall.reg .rsp) 0 (.prim .i64)) = some 3)) (by decide +kernel)
  obtain ⟨shape, lost⟩ := Bool.and_eq_true_iff.mp checked
  exact ⟨fragment, next, _, _, run, of_decide_eq_true shape, of_decide_eq_true lost⟩

end Nasm64
