import Nasm64.Proofs.Machine.Held
import Nasm64.Proofs.Value.FastPath
import Nasm64.Proofs.Value.Prefixed

/-! The code of an integral expression computes its value. -/
namespace Nasm64

open Lower

namespace Expr

variable {env : Env} {w : World} {scope : List (String × Variable)} {expr : Expr}

def meaning (scope : List (String × Variable)) (expr : Expr) : Meaning :=
  fun machine => expr.value? (machine.local? scope)

theorem meaning_binary {pos : Position} {op : Operator} {left right : Expr} {ty : Ty} :
    (binary pos op left right ty).meaning scope =
      .join (left.type.operate? op) (left.meaning scope) (right.meaning scope) := rfl

theorem meaning_fixed (expr : Expr) : (Ground.integral w scope).Fixes (expr.meaning scope) := by
  intro m next hosts within
  rw [meaning, meaning, within.local? hosts.shelters]

namespace Integral

theorem type_integral (integral : expr.Integral scope) : expr.type.isIntegral = true := by
  induction integral with
  | number integer => exact Ty.isIntegral_of_isInteger integer
  | bool => rfl
  | ident _ scalar => exact scalar
  | negate _ integer | complement _ integer => exact Ty.isIntegral_of_isInteger integer
  | not => rfl
  | cast _ _ dst => exact Ty.isIntegral_of_isInteger dst
  | binary _ _ defined _ first second =>
    exact (Operation.ofTypes_suits first second defined).integral

/-- Literals, negated or not, have the value that they are folded to. -/
theorem constant_value (integral : expr.Integral scope) (folded : expr.constant? = some const) :
    ∃ v, const = .word v ∧ ∀ locals, expr.value? locals =
      some (Word.low expr.type.bytes v.toBitVec) := by
  induction integral generalizing const with
  | number =>
    cases folded
    exact ⟨_, rfl, fun _ => rfl⟩
  | @bool _ v =>
    cases folded
    exact ⟨_, rfl, fun _ => by cases v <;> rfl⟩
  | @negate _ opnd inner integer ih =>
    obtain ⟨lit, known, rfl⟩ := Option.map_eq_some_iff.mp folded
    obtain ⟨v, rfl, valued⟩ := ih known
    refine ⟨-v, rfl, fun locals => ?_⟩
    have width := Ty.bytes_cases inner.type_integral
    have narrow : opnd.type.bytes ≤ 8 := by omega
    rw [value?, valued, Option.map_some, Word.low_neg narrow]
    rfl
  | ident | not | complement | cast | binary => cases folded

theorem logical_boolean (logical : Operation.isLogical op = true) (lefts : first = 0 ∨ first = 1)
    (rights : second = 0 ∨ second = 1) : (Ty.prim .bool).operate? op first second = some 0 ∨
    (Ty.prim .bool).operate? op first second = some 1 := by
  have byte : (Ty.prim .bool).bytes = 1 := by rw [Ty.bytes, Ty.registerSize_prim]; rfl
  unfold Ty.operate?
  generalize (Ty.prim .bool).bytes = bytes at byte ⊢
  subst byte
  unfold Operation.isLogical at logical
  split at logical
  all_goals
    first
      | contradiction
      | rcases lefts with rfl | rfl <;> rcases rights with rfl | rfl <;>
          first | exact .inl rfl | exact .inr rfl

/-- Comparisons give booleans, and logical operators keep them. -/
theorem operate?_boolean {left right : Ty} {oper : Operation} (suits : oper.Suits op left right)
    (isBool : (oper.resultType left).isBool = true)
    (lefts : left.isBool = true → first = 0 ∨ first = 1)
    (rights : right.isBool = true → second = 0 ∨ second = 1)
    (operated : left.operate? op first second = some res) : res = 0 ∨ res = 1 := by
  rcases suits.boolean isBool with compares | ⟨leftBool, rightBool, logical⟩
  · cases suits.realizes with
    | comparison _ _ _ _ relation =>
      rw [Ty.operate?, relation] at operated
      cases operated
      split
      · exact .inr rfl
      · exact .inl rfl
    | direct fam => rcases fam with same | same <;> rw [same] at compares <;> cases compares
    | product _ fam | unsignedProduct _ fam | shift fam =>
      rw [fam] at compares
      cases compares
    | division same =>
      rcases same with ⟨_, same⟩ | ⟨_, same⟩ <;> rw [same] at compares <;> cases compares
  · obtain rfl : left = .prim .bool := by
      cases left with
      | prim primitive => cases primitive <;> first | rfl | cases leftBool
      | _ => cases leftBool
    have given := logical_boolean logical (lefts rfl) (rights rightBool)
    rw [operated, Option.some.injEq, Option.some.injEq] at given
    exact given

/-- Boolean expressions are zero or one when the boolean variables are. -/
theorem boolean (integral : expr.Integral scope) (isBool : expr.type.isBool = true)
    (hosts : m.Hosts scope) (valued : expr.meaning scope m = some v) : v = 0 ∨ v = 1 := by
  have apart : ∀ {ty : Ty}, ty.isInteger = true → ty.isBool = true → False := by
    intro ty integer isBool
    cases ty with
    | prim primitive => cases primitive <;> first
      | exact Bool.false_ne_true integer
      | exact Bool.false_ne_true isBool
    | _ => cases integer
  induction integral generalizing v with
  | number integer => exact (apart integer isBool).elim
  | @bool _ lit =>
    cases valued
    cases lit
    · exact .inl rfl
    · exact .inr rfl
  | ident found =>
    rcases hosts.boolean found isBool with same | same
    · exact .inl (Option.some.inj (valued.symm.trans same))
    · exact .inr (Option.some.inj (valued.symm.trans same))
  | negate _ integer | complement _ integer => exact (apart integer isBool).elim
  | not =>
    obtain ⟨opnd, _, rfl⟩ := Option.map_eq_some_iff.mp valued
    by_cases zero : opnd = 0
    · exact .inr (if_pos zero)
    · exact .inl (if_neg zero)
  | cast _ _ dst => exact (apart dst isBool).elim
  | binary first second defined _ lefts rights =>
    rw [meaning_binary] at valued
    obtain ⟨left, leftValued, right, rightValued, operated⟩ := Meaning.join_eq_some.mp valued
    exact operate?_boolean
      (Operation.ofTypes_suits first.type_integral second.type_integral defined) isBool
      (fun leftBool => lefts leftBool leftValued) (fun rightBool => rights rightBool rightValued)
      operated

end Integral
abbrev Computed (env : Env) (world : World) (scope : List (String × Variable)) (expr : Expr) : Prop :=
  expr.lowering.Integral env world scope (expr.burden env) (expr.meaning scope)

/-- What has to be shown of the value of an expression. -/
theorem Integral.computed_of (integral : expr.Integral scope)
    (delivers : ∀ {frame : Frame} {top : Register} {held : List Register},
      expr.lowering.Ready scope frame top held →
      Answers expr.lowering.value env frame (.integral w scope) (expr.burden env)
        ⟨top.family, expr.type.registerSize⟩ (expr.meaning scope)) : expr.Computed env w scope where
  integral := by
    rw [lowering_type]
    exact integral.type_integral
  computes :=
    { brackets := expr.lowering_brackets env
      supported := by
        rw [lowering_type]
        rcases Ty.registerSize_cases integral.type_integral with same | same | same | same <;>
          rw [same] <;> rfl
      fixed := expr.meaning_fixed
      working := fun accepts => accepts.pooled
      delivers := by
        intro frame top held visible ord innermost accepts
        rw [lowering_type]
        exact delivers ⟨visible, ord, innermost, accepts⟩ }

section

variable {pos : Position}

theorem number_computed (integer : ty.isInteger = true) :
    (number pos v ty).Computed env w scope := by
  refine Integral.computed_of (.number integer) fun ready => ?_
  exact lowerNumber_delivers integer fun _ _ meant => Option.some.inj meant

theorem bool_computed : (bool pos v).Computed env w scope := by
  refine Integral.computed_of .bool fun {frame} top held ready => ?_
  refine ⟨_, frame, yields_pure.mpr ⟨rfl, rfl⟩, .constant rfl ?_⟩
  intro m res hosts meant
  cases meant
  cases v <;> rfl

theorem ident_computed (found : scope.lookup name = some slot)
    (scalar : slot.type.isIntegral = true) : (ident pos name slot.type).Computed env w scope := by
  refine Integral.computed_of (.ident found scalar) fun ready => ?_
  refine lowerVariable_delivers ready.visible found ?_ fun _ _ meant => meant
  rcases Ty.isIntegral_cases scalar with ⟨_, same, _⟩ | ⟨_, same⟩ <;> rw [same] <;> rfl

variable {opnd : Expr} {frame : Frame} {top : Register} {held : List Register}

theorem literal_delivers (integer : ty.isInteger = true)
    (valued : ∀ locals, expr.value? locals = some (Word.low ty.bytes val.toBitVec)) :
    Answers (lowerNumber pos val ty) env frame (.integral w scope) weight ⟨family, ty.registerSize⟩
      (expr.meaning scope) :=
  lowerNumber_delivers integer fun m _ meant =>
    Option.some.inj ((valued (m.local? scope)).symm.trans meant)

/-- What stands in front of an operand leaves it the same registers. -/
theorem ready_operand (ready : expr.lowering.Ready scope frame top held)
    (same : expr.isLeaf = opnd.isLeaf) : opnd.lowering.Ready scope frame top held :=
  ⟨ready.visible, ready.ordinary, ready.innermost, by
    simpa only [Lowering.Accepts, lowering_isLeaf, same] using ready.accepts⟩

section

variable (inner : opnd.Integral scope) (integer : opnd.type.isInteger = true)
  (computed : opnd.Computed env w scope)

include inner integer computed

theorem negate_computed : (unary pos .negate opnd).Computed env w scope := by
  refine Integral.computed_of (.negate inner integer) fun {frame} top held ready => ?_
  have general := Ty.isFloat_of_isIntegral computed.integral
  have numeric : opnd.lowering.type.isInteger = true := by rw [lowering_type, integer]
  cases folded : opnd.constant? with
  | some const =>
    have negated : (unary pos .negate opnd).constant? = some const.negate := by
      rw [constant?, folded, Option.map_some]
    obtain ⟨v, same, valued⟩ := (Integral.negate inner integer).constant_value negated
    refine (literal_delivers integer valued).imp fun run => yields_lowerNegate.mpr
      ⟨.inl numeric, .inl ⟨.word v, ?_, .inr ⟨general, v, rfl, by rw [lowering_type]; exact run⟩⟩⟩
    rw [folded, Option.map_some, same]
    rfl
  | none =>
    refine (negate_delivers computed (ready_operand ready rfl) opnd.lowering_type).imp fun run =>
      yields_lowerNegate.mpr ⟨.inl numeric, .inr ⟨?_, by rw [lowering_type]; exact run⟩⟩
    rw [folded]
    rfl

theorem complement_computed : (unary pos .complement opnd).Computed env w scope := by
  refine Integral.computed_of (.complement inner integer) fun {frame} top held ready => ?_
  have numeric : opnd.lowering.type.isInteger = true := by rw [lowering_type, integer]
  cases lit : opnd.integerLiteral? with
  | some v =>
    have valued : ∀ locals, (unary pos .complement opnd).value? locals =
        some (Word.low opnd.type.bytes (~~~v).toBitVec) := by
      intro locals
      cases opnd with
      | number _ _ ty =>
        cases lit
        have narrow : ty.bytes ≤ 8 := by
          rcases Ty.bytes_cases (Ty.isIntegral_of_isInteger integer) with same | same | same | same <;>
            exact Nat.le_trans (Nat.le_of_eq same) (by decide)
        exact congrArg some (Word.low_not narrow)
      | _ => cases lit
    exact (literal_delivers integer valued).imp fun run => yields_lowerComplement.mpr
      ⟨numeric, .inl ⟨v, lit, by rw [lowering_type]; exact run⟩⟩
  | none =>
    exact (complement_delivers computed (ready_operand ready rfl) opnd.lowering_type).imp fun run =>
      yields_lowerComplement.mpr ⟨numeric, .inr ⟨lit, by rw [lowering_type]; exact run⟩⟩

end

theorem not_computed (inner : opnd.Integral scope) (isBool : opnd.type.isBool = true)
    (computed : opnd.Computed env w scope) : (unary pos .not opnd).Computed env w scope := by
  refine Integral.computed_of (.not inner isBool) fun {frame} top held ready => ?_
  have logical : opnd.lowering.type.isBool = true := by rw [lowering_type, isBool]
  cases lit : opnd.boolLiteral? with
  | some v =>
    refine ⟨_, frame, yields_lowerNot.mpr ⟨logical, .inl ⟨v, lit, rfl, rfl⟩⟩,
      .constant rfl ?_⟩
    intro m res hosts meant
    cases opnd with
    | bool =>
      cases lit
      cases meant
      cases v <;> rfl
    | _ => cases lit
  | none =>
    have byte : opnd.lowering.type.registerSize = 1 := by
      rw [lowering_type]
      cases known : opnd.type with
      | prim primitive =>
        rw [known] at isBool
        cases primitive <;> first | rfl | exact absurd isBool Bool.false_ne_true
      | _ => rw [known] at isBool; exact absurd isBool Bool.false_ne_true
    exact (not_delivers computed byte (fun m v => inner.boolean isBool)
      (ready_operand ready rfl)).imp fun run => yields_lowerNot.mpr ⟨logical, .inr ⟨lit, run⟩⟩

theorem cast_computed (inner : opnd.Integral scope)
    (src : opnd.type.isInteger = true ∨ opnd.type.isBool = true) (integer : ty.isInteger = true)
    (computed : opnd.Computed env w scope) : (cast pos opnd ty).Computed env w scope := by
  refine Integral.computed_of (.cast inner src integer) fun {frame} top held ready => ?_
  obtain ⟨dst, rfl⟩ := Ty.prim_of_isInteger integer
  obtain ⟨origin, known⟩ : ∃ origin, opnd.type = .prim origin := by
    cases known : opnd.type with
    | prim origin => exact ⟨origin, rfl⟩
    | _ =>
      rw [known] at src
      exact absurd src (by simp [Ty.isInteger, Ty.isBool])
  have numbers : origin.isInteger = true ∨ origin = .bool := by
    rw [known] at src
    refine src.imp id fun isBool => ?_
    cases origin <;> first | rfl | exact absurd isBool Bool.false_ne_true
  have same : (cast pos opnd (.prim dst)).meaning scope =
      fun m => (opnd.meaning scope m).map (Conversion.recast origin dst) := by
    funext m
    simp only [meaning, value?, known, Ty.bytes, Ty.registerSize_prim, Int.toNat_natCast]
    rfl
  rw [same]
  exact lowerCast_delivers computed (by rw [lowering_type, known]) numbers integer
    (ready_operand ready rfl)

variable {op : Operator} {left right : Expr} {oper : Operation}

/-- Registers of the pool are accepted by every node. -/
theorem heads_accepts (node : Lowering) (held : List Register) (heads : Register.heads false held) :
    node.Accepts held := by
  cases held with
  | nil => exact heads
  | cons top rest => exact .inl heads

theorem integral_operates (first : left.Integral scope) (second : right.Integral scope)
    (defined : Operation.ofTypes left.type op right.type = .ok oper)
    (wide : op = .div ∨ op = .rem → left.type.registerSize = 4 ∨ left.type.registerSize = 8) :
    Operates (.integral w scope) oper left.type.registerSize (left.type.operate? op) := by
  intro frame work dst opnd m leftValue rightValue res width same presents fits computed
  have suits := Operation.ofTypes_suits first.type_integral second.type_integral defined
  exact Machine.applied_runs frame suits.realizes (fun divides => width ▸ wide divides) width same
    presents fits computed

/-- The operations on integral types compare by the flags of a subtraction. -/
theorem realizes_compares (realizes : oper.Realizes op signed) : compares oper = true ↔
    oper.family = .compare := by
  unfold compares
  cases realizes with
  | direct fam => rcases fam with same | same <;> rw [same] <;> decide
  | product _ fam | unsignedProduct _ fam | shift fam | comparison fam =>
    rw [fam]
    decide
  | division same => rcases same with ⟨_, same⟩ | ⟨_, same⟩ <;> rw [same] <;> decide

theorem binary_splits (first : left.Integral scope) (second : right.Integral scope)
    (wide : op = .div ∨ op = .rem → left.type.registerSize = 4 ∨ left.type.registerSize = 8)
    (lefts : left.Computed env w scope) (rights : right.Computed env w scope) :
    (binary pos op left right ty).Splits env (.integral w scope) scope
      ((binary pos op left right ty).meaning scope) := by
  rintro _ _ _ _ _ ⟨rfl⟩
  refine .intro (fun _ => lefts.computes.weaken ?_ (heads_accepts _))
    (fun _ => rights.computes.weaken ?_ (heads_accepts _)) fun {oper} defined => ?_
  · simp only [burden]
    omega
  · simp only [burden]
    omega
  · rw [lowering_type, lowering_type] at defined
    rw [lowering_type]
    exact integral_operates first second defined wide

theorem within_computes (pooled : top.family ∈ Register.poolFamilies false)
    (defined : Operation.ofTypes left.type op right.type = .ok oper)
    (width : right.type.registerSize = left.type.registerSize) (lefts : left.Computed env w scope)
    (rights : right.Computed env w scope)
    (operates : Operates (.integral w scope) oper left.type.registerSize compute) :
    (Pending.within pos left.lowering right.lowering oper ty top).Computes env (.integral w scope)
      scope (left.burden env) (right.burden env) (left.meaning scope) (right.meaning scope)
      left.lowering.Accepts right.lowering.Accepts compute where
  left := lefts.computes
  right := rights.computes
  leftWidth := rfl
  rightWidth := by
    show left.lowering.type.registerSize = right.lowering.type.registerSize
    rw [lowering_type, lowering_type, width]
  pooled := pooled
  same := rfl
  lawful := Operation.ofTypes_lawful defined
  general := fun _ => rfl
  operates := by
    show Operates _ _ left.lowering.type.registerSize compute
    rw [lowering_type]
    exact operates

theorem binary_computed (first : left.Integral scope) (second : right.Integral scope)
    (defined : Operation.ofTypes left.type op right.type = .ok oper)
    (wide : op = .div ∨ op = .rem → left.type.registerSize = 4 ∨ left.type.registerSize = 8)
    (lefts : left.Computed env w scope) (rights : right.Computed env w scope)
    (leftSplits : left.Splits env (.integral w scope) scope (left.meaning scope))
    (rightSplits : right.Splits env (.integral w scope) scope (right.meaning scope)) :
    (binary pos op left right (oper.resultType left.type)).Computed env w scope := by
  have suits := Operation.ofTypes_suits first.type_integral second.type_integral defined
  refine Integral.computed_of (.binary first second defined wide) fun {frame} top held ready => ?_
  have pooled : top.family ∈ Register.poolFamilies false := by
    rcases ready.accepts with pooled | ⟨leaf, _⟩
    · exact pooled
    · rw [lowering_isLeaf] at leaf
      cases leaf
  have class_ := Ty.isFloat_of_isIntegral lefts.integral
  have size : (oper.resultType left.type).registerSize =
      if compares oper then 1 else left.lowering.type.registerSize := by
    rw [lowering_type, suits.size]
    simp only [realizes_compares suits.realizes]
  have fits : left.burden env + right.burden env + 16 ≤
      (binary pos op left right (oper.resultType left.type)).burden env := by
    simp only [burden, Nat.le_refl]
  rw [lowering_binary, meaning_binary]
  show Answers (lowerBinary pos op left.lowering right.lowering fun _ => fourLeaves left right) env
    frame _ _ ⟨_, (oper.resultType left.type).registerSize⟩ _
  refine lowerBinary_delivers ready.ordinary ready.visible ready.innermost
    (Register.mem_poolFamilies_isFloat pooled) ?_ (by rw [lowering_type])
    ⟨class_, Ty.isFloat_of_isIntegral suits.integral⟩ size
    (within_computes pooled defined suits.width lefts rights
      (integral_operates first second defined wide))
    (fun four => fourLeaves_computes leftSplits rightSplits) fits
    ⟨.inl pooled, fun leaf r seconds => ?_, fun _ _ r found => ?_,
      fun _ _ => .inl pooled⟩
  · rw [lowering_type, lowering_type]
    exact defined
  · cases seconds with
    | free found => exact .inl (Frame.free_fresh found).pooled
    | staging => exact .inr ⟨leaf, rfl⟩
  · exact .inl (Frame.free_fresh found).pooled

end

/-- The code of every integral expression computes its value. -/
theorem Integral.computed (env : Env) (w : World) (integral : expr.Integral scope) :
    expr.Computed env w scope ∧ expr.Splits env (.integral w scope) scope (expr.meaning scope) := by
  induction integral with
  | number integer => exact ⟨number_computed integer, fun same => nomatch same⟩
  | bool => exact ⟨bool_computed, fun same => nomatch same⟩
  | ident found scalar => exact ⟨ident_computed found scalar, fun same => nomatch same⟩
  | negate inner integer ih => exact ⟨negate_computed inner integer ih.1, fun same => nomatch same⟩
  | not inner isBool ih => exact ⟨not_computed inner isBool ih.1, fun same => nomatch same⟩
  | complement inner integer ih =>
    exact ⟨complement_computed inner integer ih.1, fun same => nomatch same⟩
  | cast inner src dst ih =>
    exact ⟨cast_computed inner src dst ih.1, fun same => nomatch same⟩
  | binary first second defined wide lefts rights =>
    exact ⟨binary_computed first second defined wide lefts.1 rights.1 lefts.2 rights.2,
      binary_splits first second wide lefts.1 rights.1⟩

end Expr

/-- Lowering an integral expression into a general register of its size succeeds, however many
registers are held and whatever features are enabled, and running the code leaves the value of the
expression there. The stack has to have room for what the operators park on it. -/
theorem integral_expression_evaluated {env : Env} {frame : Frame} {expr : Expr} {register : Register}
    (integral : expr.Integral frame.scope)
    (held : ∀ other ∈ frame.held, ∃ isFloat, other.family ∈ Register.poolFamilies isFloat)
    (pooled : register.family ∈ Register.poolFamilies false)
    (size : register.size = expr.type.registerSize) :
    ∃ code next, Yields (expr.lowering.answer (.register register)) env frame (.value code register)
        next ∧
      ∀ (world : World) (machine : Machine) (value : BitVec 64), machine.Hosts frame.scope →
        expr.burden env ≤ machine.room → expr.value? (machine.local? frame.scope) = some value →
        ∃ after, machine.run world code = some after ∧ after.view register = value := by
  have ordinary : frame.Ordinary := by
    intro other member
    obtain ⟨_, pooled⟩ := held other member
    exact Frame.pool_ordinary pooled
  have lowered : ∀ world : World, ∃ code next,
      Yields (expr.lowering.answer (.register register)) env frame (.value code register) next ∧
        Leaves (.integral world frame.scope) (expr.burden env) (expr.meaning frame.scope) code
          register := by
    intro world
    obtain ⟨computed, _⟩ := integral.computed env world
    have working : register.Working false :=
      ⟨List.mem_cons_of_mem _ pooled, size ▸ expr.lowering_type ▸ computed.computes.supported⟩
    obtain ⟨fragment, next, run, delivers⟩ := computed.computes.delivers (frame.push register) rfl
      (ordinary.push working.ordinary) rfl (.inl pooled)
    rw [Expr.lowering_type, ← size] at delivers
    obtain ⟨code, settled, _, leaves⟩ := delivers.settles working
    exact ⟨code, next.pop, Lowering.yields_prepare.mpr
      ⟨working.valid, fragment, next, run, settled.symm, rfl⟩, leaves⟩
  obtain ⟨code, next, run, _⟩ := lowered .clearing
  refine ⟨code, next, run, fun world machine value hosts room valued => ?_⟩
  obtain ⟨other, _, again, leaves⟩ := lowered world
  obtain ⟨same, _⟩ := run.unique again
  cases same
  exact leaves machine value hosts room valued

/-- A frame with a variable `x` in which all registers but `rax` are held. -/
def Lower.Frame.crowded : Frame where
  held := [⟨.rcx, 8⟩, ⟨.rdi, 8⟩, ⟨.rdx, 8⟩, ⟨.rsi, 8⟩, ⟨.r8, 8⟩, ⟨.r9, 8⟩, ⟨.r10, 8⟩]
  scope := [("x", ⟨8, 8, 1, .prim .i64⟩)]

def Expr.increased (value : Int64) : Expr :=
  .binary {} .add (.ident {} "x" (.prim .i64)) (.number {} value (.prim .i64)) (.prim .i64)

theorem crowded_quotient_evaluated :
    ∃ code next, Yields
        ((Expr.binary {} .div (.increased 5) (.increased 2) (.prim .i64)).lowering.answer
          (.register ⟨.rax, 8⟩)) (.pairing 16) .crowded (.value code ⟨.rax, 8⟩) next ∧
      ∃ after, (Machine.sample 7).run .clearing code = some after ∧ after.view ⟨.rax, 8⟩ = 2 := by
  have sum : ∀ value, (Expr.increased value).Integral Frame.crowded.scope := by
    intro value
    have found : Frame.crowded.scope.lookup "x" = some ⟨8, 8, 1, .prim .i64⟩ := rfl
    have added : Operation.ofTypes (.prim .i64) .add (.prim .i64) =
        .ok ⟨.add, .arith, .add, none, true, none⟩ := rfl
    exact .binary (.ident found rfl) (.number rfl) added nofun
  have divided : Operation.ofTypes (.prim .i64) .div (.prim .i64) =
      .ok ⟨.div, .div, .idiv, none, true, none⟩ := rfl
  have quotient : (Expr.binary {} .div (.increased 5) (.increased 2) (.prim .i64)).Integral
      Frame.crowded.scope := .binary (sum 5) (sum 2) divided fun _ => .inr rfl
  have only : ∀ {name slot}, Frame.crowded.scope.lookup name = some slot →
      slot = ⟨8, 8, 1, .prim .i64⟩ := by
    intro name slot found
    simp only [Frame.crowded, List.lookup_cons, List.lookup_nil] at found
    split at found <;> cases found
    rfl
  have hosts : (Machine.sample 7).Hosts Frame.crowded.scope := by
    constructor
    · intro name slot found scalar byte covered below
      obtain rfl := only found
      have near : (byte - 8184).toNat < 8 := covered
      have low : byte.toNat < 4096 := below.2
      bv_omega
    · intro name slot found isBool
      rw [only found] at isBool
      cases isBool
  have pooled : (⟨.rax, 8⟩ : Register).family ∈ Register.poolFamilies false := by decide
  have held : ∀ other ∈ Frame.crowded.held, ∃ isFloat, other.family ∈ Register.poolFamilies isFloat :=
    fun other member => ⟨false, by revert other; decide⟩
  obtain ⟨code, next, lowered, runs⟩ := integral_expression_evaluated quotient held pooled rfl
  exact ⟨code, next, lowered, runs .clearing (.sample 7) 2 hosts (by decide +kernel)
    (by decide +kernel)⟩

end Nasm64
