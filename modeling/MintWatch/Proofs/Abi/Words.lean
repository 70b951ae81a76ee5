import Mathlib
import MintWatch.Abi.Canonical
import MintWatch.Proofs.Abi.Typing
import MintWatch.Proofs.Bytes.BigEndian
/-!
# Words and the values they encode

A word of a type of one word is canonical exactly if it is the encoding of a value that
inhabits the type, and then that value is the one the word is read as.  Function values
are the exception: their words are not looked at, so every word is taken.
-/

namespace MintWatch
namespace Abi

theorem Word.range_eq : Word.range = 256 ^ 32 := by
  decide

theorem Word.toNat_lt
    (word : Word) :
    word.toNat < 256 ^ 32 := by
  have hlt := bigEndian_lt word.toList
  rwa [word.length_toList] at hlt

@[simp] theorem Part.length_word
    (number : Nat) :
    (Part.word number).length = 32 :=
  length_bigEndianBytes 32 number

theorem Part.word_toNat
    (word : Word) :
    Part.word word.toNat = word.toList :=
  bigEndianBytes_bigEndian word.length_toList

theorem toNat_of_toList_eq_word
    {word : Word} {number : Nat}
    (hword : word.toList = Part.word number)
    (hlt : number < 256 ^ 32) :
    word.toNat = number := by
  unfold Octets.toNat
  rw [hword, Part.word, bigEndian_bigEndianBytes, Nat.mod_eq_of_lt hlt]

/-! ## Two's complements -/

theorem twosComplement_toInt
    (word : Word) :
    twosComplement (Word.toInt word) = word.toNat := by
  have hlt := Word.toNat_lt word
  rw [← Word.range_eq] at hlt
  unfold twosComplement Word.toInt
  split
  · rw [Int.emod_eq_of_lt (by omega) (by omega)]
    omega
  · rw [Int.sub_emod_right, Int.emod_eq_of_lt (by omega) (by omega)]
    omega

theorem toInt_of_toNat_eq_twosComplement
    {word : Word} {number : Int}
    (hword : word.toNat = twosComplement number)
    (hlow : -(2 ^ 255 : Int) ≤ number)
    (hhigh : number < 2 ^ 255) :
    Word.toInt word = number := by
  have hrange : (Word.range : Int) = 2 ^ 256 := by decide
  unfold Word.toInt
  rw [hword]
  unfold twosComplement
  have hpower : (2 ^ 256 : Int) = 2 * 2 ^ 255 := by norm_num
  by_cases hnegative : number < 0
  · have hmod : number % (Word.range : Int) = number + Word.range := by
      rw [← Int.add_emod_right, Int.emod_eq_of_lt (by omega) (by omega)]
    rw [hmod]
    split <;> omega
  · have hmod : number % (Word.range : Int) = number :=
      Int.emod_eq_of_lt (by omega) (by omega)
    rw [hmod]
    split <;> omega

theorem signFill_eq
    (first : UInt8) :
    signFill first = if first.toNat < 128 then 0x00 else 0xFF := by
  have hbit : (first &&& 0x80 == 0) = decide (first.toNat < 128) := by
    have hlt := first.toNat_lt
    have hand : (first &&& 0x80).toNat = (first.toNat.testBit 7).toNat * 2 ^ 7 := by
      rw [UInt8.toNat_and]
      exact Nat.and_two_pow first.toNat 7
    have hzero : first &&& 0x80 = 0 ↔ (first &&& 0x80).toNat = 0 := by
      simpa using (UInt8.toNat_inj (a := first &&& 0x80) (b := 0)).symm
    rw [Bool.eq_iff_iff, beq_iff_eq, decide_eq_true_eq, hzero, hand,
      Nat.testBit_eq_decide_div_mod_eq]
    by_cases hsmall : first.toNat < 128
    · have hdiv : first.toNat / 128 = 0 := by omega
      simp [hdiv, hsmall]
    · have hdiv : first.toNat / 128 = 1 := by omega
      simp [hdiv, hsmall]
  unfold signFill
  rw [hbit]
  by_cases hsmall : first.toNat < 128 <;> simp [hsmall]

theorem two_pow_bits
    (width : Width) :
    2 ^ width.bits = 256 ^ width.bytes := by
  rw [Width.bits, Nat.pow_mul]

/-! ## Canonical words -/

namespace Ty

theorem isCanonical_bool_iff
    (word : Word) :
    isCanonical .bool word = true ↔ word.toNat ≤ 1 := by
  have hlength : word.toList.length = 31 + 1 := word.length_toList
  obtain ⟨last, hlast⟩ := List.length_eq_one_iff.mp
    (show (word.toList.drop 31).length = 1 by rw [List.length_drop, hlength])
  have hsplit := bigEndian_take_drop hlength
  have hback : bigEndian (word.toList.drop 31) = last.toNat := by
    simp [hlast, bigEndian]
  have hle : last ≤ 1 ↔ last.toNat ≤ 1 := UInt8.le_iff_toNat_le
  have hlt := last.toNat_lt
  simp only [isCanonical, Bool.and_eq_true, zeros_front_iff hlength, hlast, List.all_cons,
    List.all_nil, Bool.and_true, decide_eq_true_eq, hle]
  change bigEndian word.toList < 256 ^ 1 ∧ _ ↔ bigEndian word.toList ≤ 1
  constructor
  · rintro ⟨hsmall, hbit⟩
    rw [← bigEndian_drop_of_lt hlength hsmall, hback]
    exact hbit
  · intro hbit
    have hsmall : bigEndian word.toList < 256 ^ 1 := by omega
    have hdrop := bigEndian_drop_of_lt hlength hsmall
    rw [hback] at hdrop
    exact ⟨hsmall, by omega⟩

theorem isCanonical_uint_iff
    (width : Width) (word : Word) :
    isCanonical (.uint width) word = true ↔ word.toNat < 2 ^ width.bits := by
  have hlength : word.toList.length = (32 - width.bytes) + width.bytes := by
    have hle := width.le
    rw [word.length_toList]
    omega
  rw [two_pow_bits]
  exact zeros_front_iff hlength

theorem isCanonical_address_iff
    (word : Word) :
    isCanonical .address word = true ↔
      word.toList = List.replicate 12 0 ++ (word.drop 12).toList := by
  have hfront : (word.toList.take 12).length = 12 := by
    rw [List.length_take, word.length_toList]
    rfl
  have hzeros :
      ((word.toList.take 12).all (· == 0)) = true ↔
        word.toList.take 12 = List.replicate 12 0 := by
    rw [List.all_eq_true, List.eq_replicate_iff]
    simp [hfront]
  change ((word.toList.take 12).all (· == 0)) = true ↔
    word.toList = List.replicate 12 0 ++ word.toList.drop 12
  rw [hzeros]
  constructor
  · intro hfrontZero
    rw [← hfrontZero, List.take_append_drop]
  · intro hsplit
    rw [hsplit]
    rfl

/-- The numbers of a signed type are those within half its range of zero or of the top. -/
theorem toInt_mem_iff
    (width : Width) (word : Word) :
    (-(2 ^ (width.bits - 1) : Int) ≤ Word.toInt word ∧
        Word.toInt word < 2 ^ (width.bits - 1)) ↔
      word.toNat < 2 ^ (width.bits - 1) ∨ Word.range ≤ word.toNat + 2 ^ (width.bits - 1) := by
  have hlt := Word.toNat_lt word
  rw [← Word.range_eq] at hlt
  have hhalf : 2 * 2 ^ (width.bits - 1) ≤ Word.range := by
    have hbits : width.bits - 1 + 1 ≤ 256 := by
      have hle := width.le
      simp only [Width.bits]
      omega
    rw [← Nat.pow_succ']
    exact Nat.pow_le_pow_right (by decide) hbits
  have hcast : ((2 ^ (width.bits - 1) : Nat) : Int) = 2 ^ (width.bits - 1) := by
    push_cast
    rfl
  rw [← hcast]
  unfold Word.toInt
  generalize 2 ^ (width.bits - 1) = half at *
  split <;> omega

theorem isCanonical_int_iff
    (width : Width) (word : Word) :
    isCanonical (.int width) word = true ↔
      word.toNat < 2 ^ (width.bits - 1) ∨ Word.range ≤ word.toNat + 2 ^ (width.bits - 1) := by
  have hpos := width.pos
  have hle := width.le
  have hlength : word.toList.length = (32 - width.bytes) + width.bytes := by
    rw [word.length_toList]
    omega
  have hback : (word.toList.drop (32 - width.bytes)).length = (width.bytes - 1) + 1 := by
    rw [List.length_drop]
    omega
  have hrange : 256 ^ (32 - width.bytes + width.bytes) = Word.range := by
    rw [Word.range_eq]
    congr 1
    omega
  have hhalf : 256 ^ width.bytes = 2 * 2 ^ (width.bits - 1) := by
    rw [← two_pow_bits, ← Nat.pow_succ']
    congr 1
    simp only [Width.bits]
    omega
  have hsign := headD_lt_iff hback
  have htop := ones_front_iff hlength
  have hdropTop := bigEndian_drop_of_top hlength
  have hdropLow := bigEndian_drop_of_lt hlength
  have hdropLt := bigEndian_drop_lt hlength
  rw [show width.bytes - 1 + 1 = width.bytes by omega] at hsign
  rw [hrange] at htop hdropTop
  change _ ↔ bigEndian word.toList < _ ∨ _ ≤ bigEndian word.toList + _
  simp only [isCanonical, signFill_eq]
  -- The sign bit of the lower bytes decides which of the two ends the word has to be near.
  by_cases hclear : ((word.toList.drop (32 - width.bytes)).headD 0).toNat < 128
  · simp only [if_pos hclear, zeros_front_iff hlength]
    have hsmall := hsign.mp hclear
    constructor
    · intro hlow
      have hdrop := hdropLow hlow
      omega
    · rintro (hlow | hhigh)
      · omega
      · have hdrop := hdropTop (by omega)
        omega
  · simp only [if_neg hclear, htop]
    have hlarge : ¬ 2 * bigEndian (word.toList.drop (32 - width.bytes)) < 256 ^ width.bytes :=
      fun hsmall => hclear (hsign.mpr hsmall)
    constructor
    · intro hhigh
      have hdrop := hdropTop hhigh
      omega
    · rintro (hlow | hhigh)
      · have hdrop := hdropLow (by omega)
        omega
      · omega

/-! ## Words as encodings -/

theorem wordValue_of_encode
    {ty : Ty} {value : Value} {word : Word}
    (hword : ty.isWord = true)
    (htyped : ty.HasValue value)
    (hencode : value.encode = word.toList) :
    ty.wordValue word = value := by
  cases ty with
  | bool =>
      obtain ⟨flag, rfl⟩ := htyped
      simp only [Value.encode] at hencode
      have hnumber := toNat_of_toList_eq_word hencode.symm (by split <;> decide)
      cases flag <;> simp_all [wordValue]
  | int width =>
      obtain ⟨number, rfl, hlow, hhigh⟩ := htyped
      simp only [Value.encode] at hencode
      have hnumber : word.toNat = twosComplement number := by
        refine toNat_of_toList_eq_word hencode.symm ?_
        have hrange : (Word.range : Int) = 256 ^ 32 := by decide
        have hmod := Int.emod_lt_of_pos number (show (0 : Int) < Word.range by decide)
        unfold twosComplement
        omega
      have hpower : (2 ^ (width.bits - 1) : Int) ≤ 2 ^ 255 := by
        apply pow_le_pow_right₀ (by decide)
        have hle := width.le
        simp only [Width.bits]
        omega
      simp only [wordValue]
      rw [toInt_of_toNat_eq_twosComplement hnumber (by omega) (by omega)]
  | uint width =>
      obtain ⟨number, rfl, hlt⟩ := htyped
      simp only [Value.encode] at hencode
      have hpower : 256 ^ width.bytes ≤ 256 ^ 32 := Nat.pow_le_pow_right (by decide) width.le
      rw [two_pow_bits] at hlt
      simp only [wordValue]
      rw [toNat_of_toList_eq_word hencode.symm (by omega)]
  | fixedBytes width =>
      obtain ⟨stored, rfl, -⟩ := htyped
      simp only [Value.encode] at hencode
      simp only [wordValue]
      rw [Octets.eq_of_toList_eq hencode]
  | address =>
      obtain ⟨address, rfl⟩ := htyped
      simp only [Value.encode] at hencode
      simp only [wordValue, Value.address.injEq]
      apply Octets.eq_of_toList_eq
      simp [Octets.drop, ← hencode]
  | function =>
      obtain ⟨bytes, rfl⟩ := htyped
      simp only [Value.encode] at hencode
      simp only [wordValue, Value.function.injEq]
      apply Octets.eq_of_toList_eq
      simp [Octets.take, ← hencode, bytes.length_toList]
  | bytes => simp [isWord] at hword
  | string => simp [isWord] at hword
  | array item => simp [isWord] at hword
  | fixedArray item count => simp [isWord] at hword
  | tuple items => simp [isWord] at hword

theorem isCanonical_iff_wordValue
    {ty : Ty} {word : Word}
    (hword : ty.isWord = true)
    (hchecked : ty ≠ .function) :
    isCanonical ty word = true ↔
      ty.HasValue (ty.wordValue word) ∧ (ty.wordValue word).encode = word.toList := by
  cases ty with
  | bool =>
      simp only [HasValue, wordValue, Value.encode, isCanonical_bool_iff]
      rw [← Part.word_toNat word]
      constructor
      · intro hsmall
        refine ⟨⟨_, rfl⟩, congrArg Part.word ?_⟩
        by_cases hzero : word.toNat = 0
        · simp [hzero]
        · simp [hzero]
          omega
      · rintro ⟨-, hencode⟩
        rw [Part.word_toNat word] at hencode
        rw [toNat_of_toList_eq_word hencode.symm (by split <;> decide)]
        split <;> decide
  | int width =>
      simp only [HasValue, wordValue, Value.encode, twosComplement_toInt, Part.word_toNat,
        and_true]
      rw [isCanonical_int_iff, ← toInt_mem_iff]
      simp
  | uint width =>
      simp only [HasValue, wordValue, Value.encode, Part.word_toNat, and_true]
      rw [isCanonical_uint_iff]
      simp
  | fixedBytes width =>
      simp only [HasValue, wordValue, Value.encode, and_true]
      simp [isCanonical]
  | address =>
      simp only [HasValue, wordValue, Value.encode]
      rw [isCanonical_address_iff]
      simp [eq_comm]
  | function => exact absurd rfl hchecked
  | bytes => simp [isWord] at hword
  | string => simp [isWord] at hword
  | array item => simp [isWord] at hword
  | fixedArray item count => simp [isWord] at hword
  | tuple items => simp [isWord] at hword

/-- A word is canonical if some value that inhabits the type has it as its encoding. -/
theorem isCanonical_iff_exists_encode
    {ty : Ty} {word : Word}
    (hword : ty.isWord = true)
    (hchecked : ty ≠ .function) :
    isCanonical ty word = true ↔
      ∃ value, ty.HasValue value ∧ value.encode = word.toList := by
  rw [isCanonical_iff_wordValue hword hchecked]
  constructor
  · exact fun hcanonical => ⟨_, hcanonical⟩
  · rintro ⟨value, htyped, hencode⟩
    rw [wordValue_of_encode hword htyped hencode]
    exact ⟨htyped, hencode⟩

theorem isCanonical_of_encode
    {ty : Ty} {value : Value} {word : Word}
    (hword : ty.isWord = true)
    (htyped : ty.HasValue value)
    (hencode : value.encode = word.toList) :
    isCanonical ty word = true := by
  by_cases hfunction : ty = .function
  · subst hfunction
    rfl
  · exact (isCanonical_iff_exists_encode hword hfunction).mpr ⟨value, htyped, hencode⟩

theorem hasValue_wordValue
    {ty : Ty} {word : Word}
    (hword : ty.isWord = true)
    (hcanonical : isCanonical ty word = true) :
    ty.HasValue (ty.wordValue word) := by
  by_cases hfunction : ty = .function
  · subst hfunction
    exact ⟨_, rfl⟩
  · exact ((isCanonical_iff_wordValue hword hfunction).mp hcanonical).1

end Ty
end Abi
end MintWatch
