import Nasm64.Proofs.Conversion.Integer

/-! Conversions from integers to floats. The instruction reads a signed number of 32 or 64 bits. Main
statement: what it reads is the number to convert, unless that is too large for a signed word. -/
namespace Nasm64

theorem Scalar.number_bounds (scalar : Scalar) (word : BitVec 64) :
    if scalar.isSigned then -2 ^ (8 * scalar.bytes - 1) ≤ scalar.number word ∧
      scalar.number word < 2 ^ (8 * scalar.bytes - 1) else 0 ≤ scalar.number word ∧
      scalar.number word < 2 ^ (8 * scalar.bytes) := by
  unfold number
  split
  · exact ⟨BitVec.le_toInt _, BitVec.toInt_lt⟩
  · have below := (word.setWidth (8 * scalar.bytes)).isLt
    exact ⟨Int.natCast_nonneg _, Int.ofNat_lt.mpr below⟩

theorem Word.toInt_ofNumber (narrow : bytes ≤ 8) (number : Int) :
    ((ofNumber bytes number).setWidth (8 * bytes)).toInt = number.bmod (2 ^ (8 * bytes)) := by
  rw [ofNumber, BitVec.setWidth_setWidth_of_le _ (by omega), BitVec.setWidth_eq, BitVec.toInt_ofInt]

namespace Conversion

variable {src dst : Primitive} {origin : Source} {w : World} {m : Machine}

def fromInteger (target : Primitive) : Mnemonic := if target = .f32 then .cvtsi2ss else .cvtsi2sd

theorem between_integerToFloat (integer : src.isInteger = true) (float : dst.isFloat = true) :
    between (.prim src) (.prim dst) = .ok ⟨.integerToFloat, fromInteger dst⟩ := by
  cases dst <;> first
    | exact absurd float (by decide)
    | cases src <;> first
      | exact absurd integer (by decide)
      | rfl

theorem Source.Holds.floatOperand (holds : origin.Holds bytes)
    (width : Machine.width? origin.operand = some (bytes : Int))
    (found : m.read w bytes origin.operand = some word) :
    m.floatOperand w origin.operand = some word := by
  cases origin with
  | register place =>
    have general := holds.1
    cases (Machine.read_general general holds.2).symm.trans found
    simp only [Register.isGeneral, Bool.and_eq_true, Bool.not_eq_true'] at general
    simp [Source.operand, Machine.floatOperand, general.2, holds.1]
  | memory size addr =>
    cases holds
    simpa [Source.operand, Machine.read, Machine.fetch, Machine.floatOperand] using found
  | constant v => cases width

/-- The operand holds the low bytes of the extended integer, enough of them for its number. -/
theorem staging_executes (integer : src.isInteger = true) (holds : origin.Holds src.bytes)
    (found : m.read w src.bytes origin.operand = some word) :
    ∃ (after : Machine) (bytes : Nat), m.execute w (staging (.prim src) origin).1 = some after ∧
      Machine.width? (staging (.prim src) origin).2 = some (bytes : Int) ∧
      after.floatOperand w (staging (.prim src) origin).2 =
        some (Word.low bytes (Word.extend src.isSigned src.bytes word)) ∧
      (bytes = 8 ∨ bytes = 4 ∧ (src.bytes < 4 ∨ src.bytes = 4 ∧ src.isSigned = true)) := by
  have half : (Register.scratch.resize 4).isGeneral = true := rfl
  rcases holds.width with ⟨v, rfl⟩ | width
  · cases found
    have loaded : m.read w Register.scratch.size
        (.imm (Word.fold v src.bytes src.isSigned)) =
          some (Word.low 8 (Word.fold v src.bytes src.isSigned).toBitVec) := rfl
    obtain ⟨after, wrote, executed⟩ := Machine.execute_general (rfl : Register.scratch.isGeneral = true)
      (Machine.general_mov w m loaded) []
    refine ⟨after, 8, executed, rfl, (congrArg some wrote.view).trans (congrArg some ?_), .inl rfl⟩
    rw [Int.toNat_natCast, Word.extend_low, Word.toBitVec_fold (bytes_cases src)]
    exact Word.low_low (Nat.le_refl 8)
  · unfold staging
    split
    · cases width
    · split
      · next narrow =>
        have known : (if src.isSigned then Mnemonic.movsx else .movzx).extension? =
            some src.isSigned := by cases src.isSigned <;> rfl
        obtain ⟨after, wrote, executed⟩ := Machine.execute_general half
          (Machine.general_extension w m known width (Int.ofNat_lt.mpr narrow) found) []
        exact ⟨after, 4, executed, rfl, congrArg some wrote.view, .inr ⟨rfl, .inl narrow⟩⟩
      · split
        · next unsigned =>
          simp only [Scalar.bytes, Scalar.isSigned, Bool.and_eq_true, beq_iff_eq,
            Bool.not_eq_true'] at unsigned
          rw [unsigned.1] at found
          obtain ⟨after, wrote, executed⟩ :=
            Machine.execute_general half (Machine.general_mov w m found) []
          refine ⟨after, 8, executed, rfl, ?_, .inl rfl⟩
          have content : after.reg .r11 = Word.low 4 word := wrote.content_half rfl
          rw [unsigned.1, unsigned.2]
          exact congrArg (fun bits => some (Word.low 8 bits)) content
        · next narrow signed =>
          refine ⟨m, src.bytes, rfl, width, ?_, ?_⟩
          · rw [Word.low_extend (Nat.le_refl _)]
            exact (holds.floatOperand width found).trans
              (congrArg some (Machine.read_low found).symm)
          · cases src <;>
              simp_all [Scalar.bytes, Scalar.isSigned, Primitive.bytes, Primitive.isSigned]

/-- What the instruction reads of an operand, as a signed number of its width. -/
def signedOperand? (world : World) (machine : Machine) (operand : Operand) : Option Int := do
  let width ← Machine.width? operand
  let value ← machine.floatOperand world operand
  if width = 4 ∨ width = 8 then return (value.setWidth (8 * width.toNat)).toInt else none

section

variable {word : BitVec 64}

/-- At a width that is large enough a signed word is the number, as far as there is one. -/
theorem number_bmod {bytes : Nat} (integer : src.isInteger = true)
    (enough : bytes = 8 ∨ bytes = 4 ∧ (src.bytes < 4 ∨ src.bytes = 4 ∧ src.isSigned = true)) :
    ((Scalar.prim src).number word).bmod (2 ^ (8 * bytes)) = if (Scalar.prim src).number word <
      2 ^ 63 then (Scalar.prim src).number word else (Scalar.prim src).number word - 2 ^ 64 := by
  have bounds := (Scalar.prim src).number_bounds word
  generalize (Scalar.prim src).number word = number at bounds
  cases src <;> first
    | exact absurd integer (by decide)
    | simp [Scalar.isSigned, Scalar.bytes, Primitive.isSigned, Primitive.bytes] at bounds enough
      rcases enough with rfl | rfl <;> rw [Int.bmod_def] <;> omega

theorem number_small (integer : src.isInteger = true) (other : src ≠ .u64) :
    (Scalar.prim src).number word < 2 ^ 63 := by
  have bounds := (Scalar.prim src).number_bounds word
  cases src <;> first
    | exact absurd rfl other
    | exact absurd integer (by decide)
    | simp [Scalar.isSigned, Scalar.bytes, Primitive.isSigned, Primitive.bytes] at bounds; omega

end

/-- A conversion reads the number that is to be converted. Only a number of 64 bits without a sign
can be too large for it, and is read as a negative one. -/
theorem float_conversion_reads (source target : Primitive) (integer : source.isInteger = true)
    (float : target.isFloat = true) (holds : origin.Holds source.bytes) (destination : Register)
    (world : World) (machine : Machine) :
    ∃ staged operand word after,
      convert (.prim source) (.prim target) origin destination =
        .ok (.value (staged ++ [.binary (fromInteger target) (.reg .floatScratch) operand,
          settleFloat (.prim target) destination]) (destination.resize target.bytes)) ∧
      machine.read world source.bytes origin.operand = some word ∧
      machine.execute world staged = some after ∧
      let number := (Scalar.prim source).number word
      signedOperand? world after operand = some (if number < 2 ^ 63 then number else number - 2 ^ 64) ∧
        (source ≠ .u64 → number < 2 ^ 63) := by
  obtain ⟨word, found⟩ := holds.read world machine
  obtain ⟨after, bytes, executed, width, read, enough⟩ := staging_executes integer holds found
  have converted := convert_eq (between_integerToFloat integer float) origin destination
  have size : bytes = 4 ∨ bytes = 8 := by rcases enough with rfl | ⟨rfl, _⟩ <;> simp
  have narrow : bytes ≤ 8 := by omega
  have value := Word.toInt_ofNumber narrow ((Scalar.prim source).number word)
  rw [← Word.low_extend_number _ narrow, number_bmod integer enough] at value
  refine ⟨_, (staging (.prim source) origin).2, word, after, converted, found, executed, ?_,
    number_small integer⟩
  have wide : (bytes : Int) = 4 ∨ (bytes : Int) = 8 := by exact_mod_cast size
  simp only [signedOperand?, width, read, Option.bind_eq_bind, Option.bind_some, if_pos wide,
    Int.toNat_natCast]
  exact congrArg some value

/-- The largest number of 32 bits without a sign is read as a word. -/
theorem float_conversion_reads_unsigned : ∃ staged operand after,
    convert (.prim .u32) (.prim .f64) (.register ⟨.rax, 4⟩) ⟨.xmm 0, 8⟩ =
      .ok (.value (staged ++ [.binary .cvtsi2sd (.reg .floatScratch) operand,
        settleFloat (.prim .f64) ⟨.xmm 0, 8⟩]) ⟨.xmm 0, 8⟩) ∧
    (Machine.uniform 0xffffffff).execute .idle staged = some after ∧
    signedOperand? .idle after operand = some 0xffffffff := by
  have holds : (Source.register ⟨.rax, 4⟩).Holds 4 := ⟨rfl, rfl⟩
  obtain ⟨staged, operand, word, after, converted, found, executed, reads, _⟩ :=
    float_conversion_reads .u32 .f64 rfl rfl holds ⟨.xmm 0, 8⟩ .idle (.uniform 0xffffffff)
  have same : word = 0xffffffff := Option.some.inj (found.symm.trans (by decide))
  subst same
  exact ⟨staged, operand, after, converted, executed, reads.trans (by decide)⟩

/-- A number of 64 bits without a sign is read where it is, and from `2 ^ 63` on it is another one. -/
theorem float_conversion_misreads :
    convert (.prim .u64) (.prim .f64) (.register ⟨.rax, 8⟩) ⟨.xmm 0, 8⟩ =
      .ok (.value [.binary .cvtsi2sd (.reg .floatScratch) (.reg ⟨.rax, 8⟩),
        settleFloat (.prim .f64) ⟨.xmm 0, 8⟩] ⟨.xmm 0, 8⟩) ∧
    (Scalar.prim .u64).number ((Machine.uniform 0x8000000000000000).view ⟨.rax, 8⟩) = 2 ^ 63 ∧
    signedOperand? .idle (.uniform 0x8000000000000000) (.reg ⟨.rax, 8⟩) = some (-2 ^ 63) :=
  ⟨rfl, by decide, by decide⟩

end Conversion
end Nasm64
