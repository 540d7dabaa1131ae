import Mathlib.Data.List.GetD
import Mathlib.Data.List.Nodup
import Nasm64.Proofs.Conversion.Integer
import Nasm64.Proofs.Emission.Expr
import Nasm64.Proofs.Layout.Type
import Nasm64.Proofs.Literal.Unknown
import Nasm64.Proofs.Machine.Block
import Nasm64.Proofs.Value.Semantics

/-! Struct literals of integer constants. Main statement: the constant in the data section that such a
literal is copied from, the constants that are stored one by one and the same constants stored from a
register all leave the same bytes. -/
namespace Nasm64

open Lower

/-- The first bytes of a word, the lowest first. -/
def Word.bytes (count : Nat) (word : BitVec 64) : List (BitVec 8) := (List.range count).map (byte word)

theorem Word.getD_bytes (count : Nat) (word : BitVec 64) (i : Nat) :
    (bytes count word).getD i 0 = if i < count then byte word i else 0 := by
  simp only [bytes, List.getD_eq_getElem?_getD, List.getElem?_map]
  split
  · next inside => simp [inside]
  · next outside => simp [outside]

namespace Data

def Directive.bytes : Directive → List (BitVec 8)
  | byte value => Word.bytes 1 value.toBitVec
  | word value => Word.bytes 2 value.toBitVec
  | double value => Word.bytes 4 value.toBitVec
  | quad value => Word.bytes 8 value.toBitVec
  | singleBits bits => Word.bytes 4 (bits.toBitVec.setWidth 64)
  | doubleBits bits => Word.bytes 8 bits.toBitVec

/-- Bytes with zeros after them up to some length, unless there are more of them already. -/
def padTo? (length : Int) (bytes : List (BitVec 8)) : Option (List (BitVec 8)) :=
  if bytes.length ≤ length then some (bytes ++ List.replicate (length.toNat - bytes.length) 0) else none

def place? (ty : Ty) (bytes : List (BitVec 8)) (entry : String × Directive) :
    Option (List (BitVec 8)) := do
  let field ← ty.field? entry.1
  return (← padTo? field.offset.toInt bytes) ++ entry.2.bytes

/-- The bytes of a record. There are none when its values are not in the order of the fields or
overlap. -/
def image? (ty : Ty) (entries : List (String × Directive)) : Option (List (BitVec 8)) := do
  padTo? ty.size.toInt (← entries.foldlM (place? ty) [])

theorem Directive.bytes_ofWord {count : Nat} (width : count = 1 ∨ count = 2 ∨ count = 4 ∨ count = 8)
    (v : Int64) : (Directive.ofWord v count).bytes = Word.bytes count v.toBitVec := by
  have folded : Word.bytes count (Word.fold v count true).toBitVec =
      Word.bytes count v.toBitVec := by
    refine List.map_congr_left fun _ mem => Word.byte_congr (List.mem_range.mp mem) ?_
    rw [Word.toBitVec_fold width, Word.low_extend (Nat.le_refl _)]
  rw [← folded]
  rcases width with rfl | rfl | rfl | rfl <;> rfl

end Data

/-- A constant of an integral type: a literal of that type, negated any number of times if it is an
integer. -/
inductive Expr.Literal (ty : Ty) : Expr → Prop
  | number {position : Position} {value : Int64} : Literal ty (.number position value ty)
  | bool {position : Position} {value : Bool} (boolean : ty = .prim .bool) :
    Literal ty (.bool position value)
  | negate {position : Position} {operand : Expr} (integer : ty.isInteger = true)
    (inner : Literal ty operand) : Literal ty (.unary position .negate operand)

def Expr.word? (value : Expr) : Option Int64 :=
  match value.constant? with
  | some (.word word) => some word
  | _ => none

theorem Ty.low_fold {ty : Ty} (integral : ty.isIntegral = true) (word : Int64) :
    Word.low ty.bytes (Word.fold word ty.registerSize ty.isSigned).toBitVec =
      Word.low ty.bytes word.toBitVec := by
  rw [← bytes_cast integral, Word.toBitVec_fold (bytes_cases integral), Word.low_extend (Nat.le_refl _)]

theorem Ty.isScalar_of_isIntegral {ty : Ty} (integral : ty.isIntegral = true) : ty.isScalar = true := by
  obtain ⟨_, rfl, _⟩ | ⟨_, rfl⟩ := isIntegral_cases integral <;> rfl

namespace Expr.Literal

variable {ty : Ty} {v : Expr} {env : Env} {frame : Frame}

theorem type_eq (lit : v.Literal ty) : v.type = ty := by
  induction lit with
  | number => rfl
  | bool boolean => exact boolean.symm
  | negate _ _ ih => exact ih

theorem constant (lit : v.Literal ty) : ∃ word, v.constant? = some (.word word) := by
  induction lit with
  | number | bool => exact ⟨_, rfl⟩
  | negate _ _ ih =>
    obtain ⟨word, known⟩ := ih
    exact ⟨-word, by simp [constant?, known, Constant.negate]⟩

/-- A constant is lowered to an immediate with its bytes. -/
theorem lowers (lit : v.Literal ty) (integral : ty.isIntegral = true) {word : Int64}
    (known : v.constant? = some (.word word)) (env : Env) (frame : Frame) :
    ∃ imm, Yields v.lowering.value env frame (.inline (.imm imm)) frame ∧
      Word.low ty.bytes imm.toBitVec = Word.low ty.bytes word.toBitVec := by
  have general := Ty.isFloat_of_isIntegral integral
  have sized : ty.registerSize ≠ 0 := by
    have := Ty.registerSize_cases integral
    omega
  have numbers (pos : Position) : Yields (lowerNumber pos word ty) env frame
      (.inline (.imm (Word.fold word ty.registerSize ty.isSigned))) frame :=
    yields_lowerNumber.mpr (.inr ⟨general, sized, rfl, rfl⟩)
  have folded := Ty.low_fold integral word
  cases lit with
  | @number pos v =>
    cases known
    exact ⟨_, numbers pos, folded⟩
  | bool =>
    cases known
    exact ⟨_, yields_pure.mpr ⟨rfl, rfl⟩, rfl⟩
  | @negate pos opnd integer inner =>
    have negated : opnd.constant?.map Constant.negate = some (.word word) := known
    refine ⟨_, yields_lowerNegate.mpr ?_, folded⟩
    rw [lowering_type, inner.type_eq, negated]
    exact ⟨.inl integer, .inl ⟨.word word, rfl, .inr ⟨general, word, rfl, numbers pos⟩⟩⟩

end Expr.Literal

namespace Ty

variable {ty : Ty} {fields rest : List Field} {field : Field} {values : List (String × Expr)}
  {start limit : Int}

/-- What a literal holds at a byte of a field: a byte of the last value for it, if there is one. -/
def Field.content (values : List (String × Expr)) (place : Int) (field : Field) : BitVec 8 :=
  ((values.reverse.lookup field.name).bind Expr.word?).elim 0 fun word =>
    Word.byte word.toBitVec (place - field.offset.toInt).toNat

def content (fields : List Field) (values : List (String × Expr)) (place : Int) : BitVec 8 :=
  (fields.find? fun field => decide (field.Covers place)).elim 0 (Field.content values place)

theorem content_cons (place : Int) : content (field :: rest) values place =
    if field.Covers place then field.content values place else content rest values place := by
  simp only [content, List.find?_cons]
  split <;> simp_all

theorem content_outside (outside : ∀ field ∈ fields, ¬ field.Covers place) :
    content fields values place = 0 := by
  have missing : fields.find? (fun field => decide (field.Covers place)) = none := by
    simpa using outside
  simp [content, missing]

theorem Spread.content_before (spread : Spread start fields limit) (before : place < start) :
    content fields values place = 0 := by
  refine content_outside fun field mem covers => ?_
  have := (spread.bounds mem).1
  have := covers.1
  omega

theorem toInt_size_integral (integral : ty.isIntegral = true) : ty.size.toInt = ty.bytes := by
  obtain ⟨prim, rfl, _⟩ | ⟨dst, rfl⟩ := isIntegral_cases integral
  · cases prim <;> rfl
  · rfl

@[simp] theorem content_nil (place : Int) : content fields [] place = 0 := by
  unfold content
  cases fields.find? fun field => decide (field.Covers place) <;> rfl

def Field.Given (field : Field) (value : Expr) : Prop :=
  field.type.isIntegral = true ∧ value.Literal field.type

theorem Field.Given.directive (given : field.Given v) :
    ∃ const directive word, v.constant? = some const ∧ v.word? = some word ∧
      Data.Directive.ofConstant? field.type const = some directive ∧
      directive.bytes = Word.bytes field.type.bytes word.toBitVec := by
  obtain ⟨integral, lit⟩ := given
  obtain ⟨word, known⟩ := lit.constant
  refine ⟨_, .ofWord word field.type.bytes, word, known, by simp [Expr.word?, known], ?_,
    Data.Directive.bytes_ofWord (bytes_cases integral) word⟩
  simp [Data.Directive.ofConstant?, isScalar_of_isIntegral integral, isFloat_of_isIntegral integral,
    toInt_size_integral integral]

end Ty

namespace Data

variable {ty : Ty} {fields : List Ty.Field} {field : Ty.Field} {values : List (String × Expr)}
  {start limit : Int} {bytes : List (BitVec 8)} {directive : Directive} {word : BitVec 64}

theorem padTo?_eq {length : Int} (short : bytes.length ≤ length) :
    ∃ padded, padTo? length bytes = some padded ∧ (padded.length : Int) = length ∧
      ∀ place, padded.getD place 0 = bytes.getD place 0 := by
  refine ⟨_, if_pos short, by rw [List.length_append, List.length_replicate]; omega, fun place => ?_⟩
  by_cases inside : place < bytes.length
  · exact List.getD_append _ _ _ _ inside
  · have past := Nat.le_of_not_lt inside
    rw [List.getD_append_right _ _ _ _ past, List.getD_eq_default _ _ past]
    by_cases zero : place - bytes.length < length.toNat - bytes.length
    · exact List.getD_replicate 0 zero
    · exact List.getD_eq_default _ _ (by simpa using zero)

theorem place?_eq (named : ty.field? field.name = some field)
    (short : bytes.length ≤ field.offset.toInt) {count : Nat}
    (spelled : directive.bytes = Word.bytes count word) :
    ∃ image, place? ty bytes (field.name, directive) = some image ∧
      (image.length : Int) = field.offset.toInt + count ∧
      ∀ place : Nat, image.getD place 0 = if field.offset.toInt ≤ place ∧
      place < field.offset.toInt + count then Word.byte word (place - field.offset.toInt).toNat else
        bytes.getD place 0 := by
  obtain ⟨padded, pads, length, same⟩ := padTo?_eq short
  refine ⟨padded ++ Word.bytes count word, by simp [place?, named, pads, spelled], ?_, fun place => ?_⟩
  · rw [List.length_append, Word.bytes, List.length_map, List.length_range]
    omega
  · by_cases before : place < padded.length
    · rw [if_neg (by omega), List.getD_append _ _ _ _ before, same]
    · rw [List.getD_append_right _ _ _ _ (Nat.le_of_not_lt before), Word.getD_bytes,
        List.getD_eq_default bytes _ (by omega),
        show place - padded.length = ((place : Int) - field.offset.toInt).toNat by omega]
      exact if_congr (by omega) rfl rfl

/-- The values of a literal are put one after the other. -/
theorem fields_assemble (spread : Ty.Spread start fields limit)
    (named : ∀ field ∈ fields, ty.field? field.name = some field)
    (given : ∀ field ∈ fields, ∀ v, values.reverse.lookup field.name = some v → field.Given v)
    (short : bytes.length ≤ start) :
    ∃ entries image, DataSection.constantFields? fields values = some entries ∧
      entries.foldlM (place? ty) bytes = some image ∧ image.length ≤ limit ∧
      (∀ entry ∈ entries, ∃ field, ty.field? entry.1 = some field ∧
        (entry.2.bytes.length : Int) = field.type.size.toInt) ∧
      ∀ place : Nat, image.getD place 0 = if place <
        bytes.length then bytes.getD place 0 else Ty.content fields values place := by
  induction spread generalizing bytes with
  | nil within =>
    refine ⟨[], bytes, rfl, rfl, short.trans within, by simp, fun place => ?_⟩
    split
    · rfl
    · next past => exact List.getD_eq_default _ _ (Nat.le_of_not_lt past)
  | @cons start limit field rest after natural others ih =>
    have namedRest := fun other mem => named other (List.mem_cons_of_mem _ mem)
    have givenRest := fun other mem => given other (List.mem_cons_of_mem _ mem)
    cases present : values.reverse.lookup field.name with
    | none =>
      obtain ⟨entries, image, listed, placed, inside, widths, holds⟩ :=
        ih namedRest givenRest (by omega : (bytes.length : Int) ≤ _)
      refine ⟨entries, image, ?_, placed, inside, widths, fun place => ?_⟩
      · simpa only [DataSection.constantFields?, List.filterMap_cons, present, Option.map_none] using listed
      rw [holds, Ty.content_cons]
      -- The bytes of a field without a value are zero, like all between two fields.
      split
      · rfl
      · split
        · next covers => rw [others.content_before covers.2, Ty.Field.content, present]; rfl
        · rfl
    | some v =>
      obtain ⟨const, directive, word, known, read, formed, spelled⟩ :=
        (given field List.mem_cons_self v present).directive
      have sized := Ty.toInt_size_integral (given field List.mem_cons_self v present).1
      obtain ⟨next, put, length, puts⟩ := place?_eq (named field List.mem_cons_self) (short.trans after) spelled
      obtain ⟨entries, image, listed, placed, inside, widths, holds⟩ :=
        ih namedRest givenRest (by omega : (next.length : Int) ≤ _)
      refine ⟨(field.name, directive) :: entries, image, ?_, ?_, inside, ?_, fun place => ?_⟩
      · simp only [DataSection.constantFields?] at listed
        simp only [DataSection.constantFields?, List.filterMap_cons, present, Option.map_some,
          List.mapM_cons, known, listed]
        simp [formed]
      · rw [List.foldlM_cons, put]
        exact placed
      · rintro entry (_ | ⟨_, mem⟩)
        · exact ⟨field, named field List.mem_cons_self, by simp [spelled, Word.bytes, sized]⟩
        · exact widths entry mem
      · rw [holds, puts, Ty.content_cons]
        have same : field.Covers place ↔
            field.offset.toInt ≤ place ∧ place < field.offset.toInt + field.type.bytes := by
          rw [Ty.Field.Covers, sized]
        by_cases covers : field.Covers place
        · have here : field.content values place =
              Word.byte word.toBitVec (place - field.offset.toInt).toNat := by
            simp [Ty.Field.content, present, read]
          have inside := same.mp covers
          rw [if_pos inside, if_pos covers, here, if_pos (by omega), if_neg (by omega)]
        · rw [if_neg (mt same.mpr covers), if_neg covers]
          by_cases before : place < bytes.length
          · rw [if_pos before, if_pos (by omega)]
          · rw [if_neg before, List.getD_eq_default _ _ (Nat.le_of_not_lt before)]
            split
            · exact (others.content_before (by omega)).symm
            · rfl

end Data

/-- A literal that gives constants to fields of a type. -/
def Ty.Constants (ty : Ty) (values : List (String × Expr)) : Prop :=
  ∀ entry ∈ values, ∃ field, ty.field? entry.1 = some field ∧ field.Given entry.2

namespace Ty

variable {ty : Ty} {values before after : List (String × Expr)} {field : Field}

theorem mem_of_field? {name : String} (found : ty.field? name = some field) :
    field ∈ ty.fields ∧ field.name = name :=
  ⟨List.mem_of_find?_eq_some found, by simpa using List.find?_some found⟩

theorem field?_name (distinct : (ty.fields.map Field.name).Nodup) (mem : field ∈ ty.fields) :
    ty.field? field.name = some field := by
  obtain ⟨other, found⟩ : ∃ other, ty.field? field.name = some other :=
    Option.isSome_iff_exists.mp (List.find?_isSome.mpr ⟨field, mem, beq_self_eq_true _⟩)
  obtain ⟨listed, same⟩ := mem_of_field? found
  rw [found, List.inj_on_of_nodup_map distinct listed mem same]

theorem Constants.given (constants : ty.Constants values)
    (distinct : (ty.fields.map Field.name).Nodup) (mem : field ∈ ty.fields)
    (found : values.reverse.lookup field.name = some v) : field.Given v := by
  obtain ⟨earlier, later, split, _⟩ := List.lookup_eq_some_iff.mp found
  have listed : (field.name, v) ∈ values := List.mem_reverse.mp (by simp [split])
  obtain ⟨other, known, given⟩ := constants _ listed
  rw [field?_name distinct mem] at known
  cases known
  exact given

/-- A value that comes last decides about the bytes of its field. -/
theorem content_append (spread : Spread 0 ty.fields ty.size.toInt)
    (distinct : (ty.fields.map Field.name).Nodup) {name : String} {v : Expr} {word : Int64}
    (found : ty.field? name = some field) (known : v.word? = some word) (place : Int) :
    content ty.fields (values ++ [(name, v)]) place =
      if field.Covers place then Word.byte word.toBitVec (place - field.offset.toInt).toNat else
      content ty.fields values place := by
  obtain ⟨mem, rfl⟩ := mem_of_field? found
  have last : (values ++ [(field.name, v)]).reverse = (field.name, v) :: values.reverse := by simp
  cases search : ty.fields.find? fun other => decide (other.Covers place) with
  | none =>
    have apart : ¬ field.Covers place := by simpa using List.find?_eq_none.mp search field mem
    simp only [content, search, if_neg apart, Option.elim]
  | some other =>
    have listed := List.mem_of_find?_eq_some search
    have covers : other.Covers place := by simpa using List.find?_some search
    simp only [content, search, Option.elim, Field.content, last]
    by_cases same : field.Covers place
    · obtain rfl := spread.unique listed mem covers same
      simp [same, known]
    · have named : other.name ≠ field.name := by
        intro equal
        obtain rfl := List.inj_on_of_nodup_map distinct listed mem equal
        exact same covers
      rw [if_neg same, List.lookup_cons, beq_eq_false_iff_ne.mpr named]

end Ty

/-- Memory in which a struct holds the values of a literal. -/
def Memory.lay (memory : Memory) (start : BitVec 64) (ty : Ty) (values : List (String × Expr)) : Memory :=
  memory.fill start 0 ty.size.toInt.toNat fun place => Ty.content ty.fields values place

/-- Code that writes some bytes of a word to an address. It may go through the accumulator. -/
def Machine.Writes (world : World) (address : Address) (bytes : Nat) (word : BitVec 64) (code : Code) :
    Prop :=
  ∀ machine : Machine, ∃ next written, machine.perform world code = some next ∧
    Word.low bytes written = Word.low bytes word ∧
    next.memory = machine.memory.store (machine.address world address) bytes written ∧
    ∀ family, family ≠ .rax → next.reg family = machine.reg family

namespace Lower

/-- Loads the value of a field into a register and stores it, even where an instruction could hold
it. -/
def storeThrough (ty : Ty) (base : Address) (name : String) (value : Expr) : Lower Code :=
  match ty.field? name with
  | none => fail value.position (.noField ty.text name)
  | some field => storeValue value field.type (base.advance field.offset)

variable {ty : Ty} {v : Expr} {word : Int64} {addr : Address} {env : Env} {frame : Frame}

theorem storeValue_writes (addr : Address) (integral : ty.isIntegral = true) (lit : v.Literal ty)
    (known : v.constant? = some (.word word)) (aside : .rax ∉ addr.families) :
    ∃ code, Yields (storeValue v ty addr) env frame code frame ∧
      ∀ w, Machine.Writes w addr ty.bytes word.toBitVec code := by
  have r : accumulatorFor ty = ⟨.rax, ty.registerSize⟩ := by
    simp [accumulatorFor, Ty.isFloat_of_isIntegral integral, Register.accumulator, Register.resize]
  have working : Register.Working false ⟨.rax, ty.registerSize⟩ :=
    .of_width (by simp [Register.poolFamilies]) (Ty.registerSize_cases integral)
  obtain ⟨imm, lowered, low⟩ := lit.lowers integral known env (frame.push ⟨.rax, ty.registerSize⟩)
  refine ⟨[.mov (.reg ⟨.rax, ty.registerSize⟩) (.imm imm),
    .mov (.mem ty.registerSize addr) (.reg ⟨.rax, ty.registerSize⟩)], ?_, fun w m => ?_⟩
  · simp only [storeValue, r, yields_bind, yields_pure]
    refine ⟨_, frame, Lowering.yields_into.mpr ⟨working.valid, _, _, lowered, by rintro ⟨⟩, rfl, rfl⟩, ?_, rfl⟩
    simp [settle, move, store, working.isFloat, Fragment.code]
  · obtain ⟨content, blended⟩ : ∃ content, Word.blend ty.bytes (m.reg .rax)
      (Word.low ty.bytes imm.toBitVec) = content := ⟨_, rfl⟩
    have loaded : Machine.performLine w m
        (.mov (.reg ⟨.rax, ty.registerSize⟩) (.imm imm)) = some (m.set .rax content) := by
      rw [← blended]
      exact Machine.performLine_load w m working rfl
    have placed : (m.set .rax content).address w addr = m.address w addr :=
      Machine.address_same fun fam reads => if_neg fun same : fam = .rax => aside (same ▸ reads)
    have stored := Machine.performLine_store w (m.set .rax content) working addr
    refine ⟨_, content, Machine.perform_line loaded (Machine.perform_line stored rfl), ?_,
      congrArg (m.memory.store · ty.bytes content) placed, fun fam apart => if_neg apart⟩
    rw [← blended, Word.low_blend, Word.low_low (Nat.le_refl _), low]

theorem storeConstant?_writes (integral : ty.isIntegral = true)
    (known : v.constant? = some (.word word)) (stored : storeConstant? v ty addr = some code)
    (w : World) : Machine.Writes w addr ty.bytes word.toBitVec code := by
  simp only [storeConstant?, Ty.isFloat_of_isIntegral integral, Ty.isScalar_of_isIntegral integral, known,
    Bool.not_true, Bool.or_self, Bool.false_eq_true, if_false] at stored
  split at stored
  · next encodable =>
    cases stored
    have width : Register.inPool false ty.registerSize = true := by
      rcases Ty.registerSize_cases integral with same | same | same | same <;> rw [same] <;> rfl
    intro m
    have performed := Machine.performLine_constant w m width encodable addr
    exact ⟨_, _, Machine.perform_line performed rfl, Ty.low_fold integral word, rfl, fun _ _ => rfl⟩
  · cases stored

/-- A way to store values that writes that of an entry to its field and leaves the frame alone. -/
def WritesEntry (ty : Ty) (base : Address) (env : Env) (frame : Frame)
    (store : String × Expr → Lower Code) (entry : String × Expr) : Prop :=
  ∃ field word code, ty.field? entry.1 = some field ∧ field.type.isIntegral = true ∧
    entry.2.word? = some word ∧ Yields (store entry) env frame code frame ∧
    ∀ world, Machine.Writes world (base.advance field.offset) field.type.bytes word.toBitVec code

variable {base : Address} {values : List (String × Expr)} {entry : String × Expr}

theorem storeThrough_writes (env : Env) (frame : Frame) (constants : ty.Constants values)
    (aside : .rax ∉ base.families) (mem : entry ∈ values) :
    WritesEntry ty base env frame (fun entry => storeThrough ty base entry.1 entry.2) entry := by
  obtain ⟨field, found, integral, lit⟩ := constants entry mem
  obtain ⟨word, known⟩ := lit.constant
  obtain ⟨code, yields, writes⟩ := storeValue_writes (base.advance field.offset) integral lit
    known aside
  refine ⟨field, word, code, found, integral, by simp [Expr.word?, known], ?_, writes⟩
  simpa only [storeThrough, found] using yields

/-- A constant is written straight into its field, or through a register where it does not fit the
instruction. -/
theorem storeField_writes (env : Env) (frame : Frame) (constants : ty.Constants values)
    (aside : .rax ∉ base.families) (mem : entry ∈ values) :
    WritesEntry ty base env frame (fun entry => storeField ty base entry.1 entry.2) entry := by
  obtain ⟨field, found, integral, lit⟩ := constants entry mem
  obtain ⟨word, known⟩ := lit.constant
  have scalar := Ty.isScalar_of_isIntegral integral
  have read : entry.2.word? = some word := by simp [Expr.word?, known]
  cases direct : storeConstant? entry.2 field.type (base.advance field.offset) with
  | some code =>
    refine ⟨field, word, code, found, integral, read, ?_, storeConstant?_writes integral known direct⟩
    simp [storeField, found, scalar, direct]
  | none =>
    obtain ⟨code, yields, writes⟩ := storeValue_writes (base.advance field.offset) integral lit
      known aside
    refine ⟨field, word, code, found, integral, read, ?_, writes⟩
    simpa [storeField, found, scalar, direct] using yields

theorem toBitVec_natural (natural : 0 ≤ word.toInt) :
    word.toBitVec = BitVec.ofNat 64 word.toInt.toNat := by
  rw [← BitVec.ofInt_natCast, Int.toNat_of_nonneg natural]
  exact (BitVec.ofInt_toInt).symm

section

variable (spread : Ty.Spread 0 ty.fields ty.size.toInt)
  (distinct : (ty.fields.map Ty.Field.name).Nodup)

include spread distinct

theorem entry_fills {m mid : Machine} {memory : Memory} {field : Ty.Field}
    (found : ty.field? entry.1 = some field) (integral : field.type.isIntegral = true)
    (read : entry.2.word? = some word) (filled : m.memory = memory.lay (m.address w base) ty values)
    (low : Word.low field.type.bytes content = Word.low field.type.bytes word.toBitVec)
    (stored : mid.memory = m.memory.store (m.address w (base.advance field.offset)) field.type.bytes
      content) : mid.memory = memory.lay (m.address w base) ty (values ++ [entry]) := by
  have sized := Ty.toInt_size_integral integral
  have width := Ty.bytes_cases integral
  have bounds := spread.bounds (Ty.mem_of_field? found).1
  have small := ty.size.toInt_lt
  rw [stored, filled, Memory.lay, Memory.store_fill _ _ (by omega) (by rw [Machine.address_advance,
    toBitVec_natural bounds.1]) (by omega) (by omega)]
  refine Memory.fill_congr fun place _ _ => ?_
  have same : field.Covers place ↔ field.offset.toInt.toNat ≤ place ∧
      place < field.offset.toInt.toNat + field.type.bytes := by
    unfold Ty.Field.Covers
    omega
  rw [Ty.content_append spread distinct found read]
  by_cases covers : field.Covers place
  · have inside := same.mp covers
    rw [if_pos covers, if_pos inside, Word.byte_congr (by omega) low,
      show ((place : Int) - field.offset.toInt).toNat = place - field.offset.toInt.toNat by omega]
  · rw [if_neg covers, if_neg (mt same.mpr covers)]

theorem stores_run (aside : .rax ∉ base.families) {store : String × Expr → Lower Code}
    (writes : ∀ entry ∈ values, WritesEntry ty base env frame store entry) :
    ∃ codes, Yields (values.mapM store) env frame codes frame ∧
      ∀ (w : World) (m : Machine) (memory : Memory) (before : List (String × Expr)),
      m.memory = memory.lay (m.address w base) ty before →
      ∃ next, m.perform w codes.flatten = some next ∧
      next.memory = memory.lay (m.address w base) ty (before ++ values) := by
  induction values with
  | nil =>
    refine ⟨[], yields_pure.mpr ⟨rfl, rfl⟩, fun w m memory before filled => ⟨m, rfl, ?_⟩⟩
    rw [List.append_nil, filled]
  | cons entry rest ih =>
    obtain ⟨field, word, code, found, integral, read, yields, written⟩ :=
      writes entry List.mem_cons_self
    obtain ⟨codes, others, runs⟩ := ih fun entry mem => writes entry (List.mem_cons_of_mem _ mem)
    refine ⟨code :: codes, ?_, fun w m memory before filled => ?_⟩
    · rw [List.mapM_cons]
      simp only [yields_bind, yields_pure]
      exact ⟨code, frame, yields, codes, frame, others, rfl, rfl⟩
    · obtain ⟨mid, content, performed, low, memories, still⟩ := written w m
      have placed : mid.address w base = m.address w base :=
        Machine.address_same fun fam reads => still fam fun same => aside (same ▸ reads)
      have filling := entry_fills spread distinct found integral read filled low memories
      obtain ⟨next, ran, res⟩ := runs w mid memory (before ++ [entry]) (by rw [placed, filling])
      refine ⟨next, ?_, ?_⟩
      · rw [List.flatten_cons, Machine.perform_append, performed]
        exact ran
      · rw [res, placed, List.append_assoc]
        rfl

theorem cleared_stores_run (aside : .rax ∉ base.families) {store : String × Expr → Lower Code}
    (writes : ∀ entry ∈ values, WritesEntry ty base env frame store entry) :
    ∃ codes, Yields (values.mapM store) env frame codes frame ∧
      ∀ (w : World) (m : Machine), ∃ next,
      m.perform w (zeroBytes base ty.size ++ codes.flatten) = some next ∧
      next.memory = m.memory.lay (m.address w base) ty values := by
  obtain ⟨codes, yields, runs⟩ := stores_run spread distinct aside writes
  refine ⟨codes, yields, fun w m => ?_⟩
  have clears := m.perform_zeroBytes w base ty.size
  generalize cleared_eq : ({ m with memory := _ } : Machine) = cleared at clears
  have placed : cleared.address w base = m.address w base := by
    rw [← cleared_eq]
    rfl
  obtain ⟨next, ran, filled⟩ := runs w cleared m.memory [] (by
    rw [placed, ← cleared_eq]
    simp only [Memory.lay, Ty.content_nil])
  refine ⟨next, ?_, by rw [filled, placed]; rfl⟩
  rw [Machine.perform_append, clears]
  exact ran

end

end Lower

theorem Data.literal_image {ty : Ty} (distinct : (ty.fields.map Ty.Field.name).Nodup)
    (spread : Ty.Spread 0 ty.fields ty.size.toInt) {values : List (String × Expr)}
    (constants : ty.Constants values) :
    ∃ entries image, DataSection.constantFields? ty.fields values = some entries ∧
      (∀ entry ∈ entries, ∃ field, ty.field? entry.1 = some field ∧
        (entry.2.bytes.length : Int) = field.type.size.toInt) ∧ image? ty entries = some image ∧
      (image.length : Int) = ty.size.toInt ∧
      ∀ place : Nat, image.getD place 0 = Ty.content ty.fields values place := by
  have nothing : (([] : List (BitVec 8)).length : Int) ≤ 0 := Int.le_refl 0
  obtain ⟨entries, filled, listed, placed, inside, widths, holds⟩ := fields_assemble spread
    (fun field mem => Ty.field?_name distinct mem)
    (fun field mem v found => constants.given distinct mem found) nothing
  obtain ⟨image, pads, length, same⟩ := padTo?_eq inside
  refine ⟨entries, image, listed, widths, by simp [image?, placed, pads], length, fun place => ?_⟩
  rw [same, holds]
  exact if_neg (Nat.not_lt_zero place)

/-- A literal of a struct with distinct names that gives constants to some of its fields. Its record in
the data section has a value as wide as its field for each of them, in the order of the fields, and an
image as long as the struct. Where the image is, apart from the struct, a copy of it leaves the same
memory as clearing the struct and storing the constants one by one, each as an immediate if it fits and
through a register otherwise, or all of them through a register. -/
theorem constant_literal_images (ty : Ty) (distinct : (ty.fields.map Ty.Field.name).Nodup)
    (fits : ty.exactSize < 2 ^ 63) (values : List (String × Expr)) (constants : ty.Constants values) :
    ∃ entries image,
      (∀ data : DataSection, ∃ label, data.addStruct? ty values =
        some (label, data.add label (.record ty.name entries))) ∧
      (∀ entry ∈ entries, ∃ field, ty.field? entry.1 = some field ∧
        (entry.2.bytes.length : Int) = field.type.size.toInt) ∧
      Data.image? ty entries = some image ∧ (image.length : Int) = ty.exactSize ∧
      ∀ (env : Env) (frame : Frame) (base : Address), .rax ∉ base.families → .r11 ∉ base.families →
        ∃ direct through,
          Yields (values.mapM fun entry => storeField ty base entry.1 entry.2) env frame direct frame ∧
          Yields (values.mapM fun entry => storeThrough ty base entry.1 entry.2) env frame through frame ∧
          ∀ (world : World) (machine : Machine) (label : String),
            (∀ place < image.length,
              machine.memory (world.label label + BitVec.ofNat 64 place) = image.getD place 0) →
            (∀ here < image.length, ∀ there < image.length,
              world.label label + BitVec.ofNat 64 here ≠
                machine.address world base + BitVec.ofNat 64 there) →
            ∃ copied stored loaded,
              machine.perform world (copyBytes base (.atLabel label) ty.size) = some copied ∧
              machine.perform world (zeroBytes base ty.size ++ direct.flatten) = some stored ∧
              machine.perform world (zeroBytes base ty.size ++ through.flatten) = some loaded ∧
              copied.memory = machine.memory.fill (machine.address world base) 0 image.length
                (fun place => image.getD place 0) ∧
              stored.memory = copied.memory ∧ loaded.memory = copied.memory := by
  have spread := ty.fields_spread fits
  obtain ⟨entries, image, listed, widths, assembled, length, holds⟩ :=
    Data.literal_image distinct spread constants
  have bytes : ty.size.toInt.toNat = image.length := by omega
  refine ⟨entries, image, fun data => by simp [DataSection.addStruct?, listed], widths, assembled,
    by rw [length, ty.toInt_size fits], ?_⟩
  intro env frame base accumulator scratch
  obtain ⟨direct, stores, storing⟩ := cleared_stores_run spread distinct accumulator
    fun entry => storeField_writes env frame constants accumulator
  obtain ⟨through, loads, loading⟩ := cleared_stores_run spread distinct accumulator
    fun entry => storeThrough_writes env frame constants accumulator
  refine ⟨direct, through, stores, loads, fun world machine label loaded apart => ?_⟩
  have origin : machine.address world (.atLabel label) = world.label label := by
    simp [Machine.address, Address.atLabel, Machine.start]
  obtain ⟨value, copies⟩ := machine.perform_copyBytes world base (.atLabel label) ty.size
    (by simpa [Address.families, Address.atLabel, Base.families] using scratch)
    (by rw [origin, bytes]; exact fun here there inside within meet =>
      absurd meet (apart here inside there within))
  obtain ⟨stored, performed, afterStores⟩ := storing world machine
  obtain ⟨last, alike, afterLoads⟩ := loading world machine
  have same : machine.memory.lay (machine.address world base) ty values =
        machine.memory.fill (machine.address world base) 0 ty.size.toInt.toNat fun place =>
          machine.memory (machine.address world (.atLabel label) + BitVec.ofNat 64 place) :=
    Memory.fill_congr fun place _ inside => by rw [origin, loaded place (by omega), holds]
  refine ⟨_, stored, last, copies, performed, alike, ?_, afterStores.trans same, afterLoads.trans same⟩
  rw [bytes, origin]
  exact Memory.fill_congr fun place _ inside => loaded place inside

/-- A struct with padding, and a literal that gives one of its fields twice. -/
def padded : Ty :=
  .struct "M" [("a", .prim .u8), ("b", .prim .i64), ("p", .pointer .void), ("c", .prim .bool)]

def paddedValues : List (String × Expr) :=
  [("b", .number {} 9 (.prim .i64)), ("a", .number {} 300 (.prim .u8)),
    ("p", .number {} 1099511627776 (.pointer .void)), ("c", .bool {} true),
    ("b", .unary {} .negate (.number {} 5 (.prim .i64)))]

/-- A machine with some bytes at the start of its memory. -/
def Machine.starting (bytes : List (BitVec 8)) : Machine :=
  { Machine.uniform 4096 with memory := fun place => bytes.getD place.toNat 0 }

theorem constant_literal_images_padded :
    (padded.fields.map Ty.Field.name).Nodup ∧ padded.exactSize < 2 ^ 63 ∧
      padded.Constants paddedValues ∧ ∃ entries image, Data.image? padded entries = some image ∧
        image.length = 32 ∧ ∃ direct, Yields (paddedValues.mapM fun entry =>
          storeField padded (.frameSlot 32) entry.1 entry.2) .bare {} direct {} ∧
        ∃ copied stored,
          (Machine.starting image).perform .idle
            (copyBytes (.frameSlot 32) (.atLabel "lit") padded.size) = some copied ∧
          (Machine.starting image).perform .idle
            (zeroBytes (.frameSlot 32) padded.size ++ direct.flatten) = some stored ∧
          stored.memory = copied.memory := by
  have distinct : (padded.fields.map Ty.Field.name).Nodup := by decide
  have fits : padded.exactSize < 2 ^ 63 := by decide
  have constants : padded.Constants paddedValues := by
    intro entry member
    simp only [paddedValues, List.mem_cons, List.not_mem_nil, or_false] at member
    rcases member with rfl | rfl | rfl | rfl | rfl
    · exact ⟨_, rfl, rfl, .number⟩
    · exact ⟨_, rfl, rfl, .number⟩
    · exact ⟨_, rfl, rfl, .number⟩
    · exact ⟨_, rfl, rfl, .bool rfl⟩
    · exact ⟨_, rfl, rfl, .negate rfl .number⟩
  obtain ⟨entries, image, _, _, assembled, length, runs⟩ :=
    constant_literal_images padded distinct fits paddedValues constants
  have size : image.length = 32 := Int.ofNat.inj length
  obtain ⟨direct, _, stores, _, runs⟩ := runs .bare {} (.frameSlot 32) (by decide) (by decide)
  have origin : (Machine.starting image).address .idle (.frameSlot 32) = 4064 := by
    simp [Machine.address, Machine.start, Address.frameSlot, Machine.starting, Machine.uniform]
  have label : World.idle.label "lit" = 0#64 := rfl
  have holds (place : Nat) (inside : place < image.length) :
      (World.idle.label "lit" + BitVec.ofNat 64 place).toNat = place := by
    rw [label, BitVec.zero_add, BitVec.toNat_ofNat, Nat.mod_eq_of_lt (by omega)]
  obtain ⟨copied, stored, _, copied_eq, stored_eq, _, _, same, _⟩ := runs .idle (.starting image) "lit"
    (fun place inside => congrArg (image.getD · 0) (holds place inside))
    (fun here inside there within => by
      rw [origin, label]
      bv_omega)
  exact ⟨distinct, fits, constants, entries, image, assembled, size, direct, stores, copied, stored,
    copied_eq, stored_eq, same⟩

/-- A struct of which the size exceeds a word. -/
def excessive : Ty := .struct "W" [("a", .array (2 ^ 60) (.prim .i64)), ("b", .prim .i64)]

/-- The negation of an address, which has a form as a constant but not as code. -/
def negatedAddress : Expr := .unary {} .negate (.number {} 1099511627776 (.pointer .void))

/-- The ways to store a constant differ where an address is negated, which only code refuses, and where
the size of a struct exceeds a word, so that nothing of it is cleared or copied. -/
theorem constant_literals_differ :
    DataSection.constantFields? (Ty.struct "S" [("p", .pointer .void)]).fields [("p", negatedAddress)] =
      some [("p", .quad (-1099511627776))] ∧
    storeField (.struct "S" [("p", .pointer .void)]) (.frameSlot 8) "p" negatedAddress .bare {} =
      .error (.failure ⟨{}, .cannotNegate "*void"⟩) ∧
    copyBytes (.frameSlot 8) (.atLabel "x") excessive.size = [] ∧ zeroBytes (.frameSlot 8) excessive.size = [] ∧
    ∃ address, storeField excessive (.frameSlot 8) "b" (.number {} 5 (.prim .i64)) .bare {} =
      .ok ([.mov (.mem 8 address) (.imm 5)], {}) := by
  refine ⟨rfl, rfl, ?_, ?_, ⟨_, rfl⟩⟩
  · decide +kernel
  · decide +kernel

end Nasm64
