import Mathlib
import MintWatch.Proofs.Abi.Words
/-!
# The size of encodings

How long the encoding of a value is, as far as its type says.  A static type takes
exactly its words; any type takes at least its least words, which is what the reader
asks for before it reads a list.  A value is dynamic exactly if its type is.
-/

namespace MintWatch
namespace Abi

/-! ## Parts -/

namespace Part

/-- The bytes of a part, wherever they stand. -/
def bytes : Part → Bytes
  | .inPlace bytes => bytes
  | .behind bytes => bytes

/-- The number of bytes behind the heads. -/
def tailSize : Part → Nat
  | .inPlace _ => 0
  | .behind bytes => bytes.length

theorem length_heads
    (offset : Nat) (parts : List Part) :
    (heads offset parts).length = headSizes parts := by
  induction parts generalizing offset with
  | nil => rfl
  | cons part rest ih =>
      cases part <;> simp [heads, headSizes, headSize, ih]

theorem length_bytes_le
    (part : Part) :
    part.bytes.length ≤ part.headSize + part.tailSize := by
  cases part <;> simp [bytes, headSize, tailSize]

theorem length_join
    (parts : List Part) :
    (join parts).length = headSizes parts + (tails parts).length := by
  rw [join, List.length_append, length_heads]

theorem length_join_cons
    (part : Part) (rest : List Part) :
    (join (part :: rest)).length = part.headSize + part.tailSize + (join rest).length := by
  rw [length_join, length_join]
  cases part with
  | inPlace content => simp [headSizes, tails, tailSize, Nat.add_assoc]
  | behind content =>
      simp only [headSizes, tails, tailSize, List.length_append]
      omega

end Part

namespace Value

/-- The part that a value contributes to a list. -/
def part (value : Value) : Part :=
  if value.isDynamic then .behind value.encode else .inPlace value.encode

theorem parts_cons
    (value : Value) (rest : List Value) :
    parts (value :: rest) = value.part :: parts rest := by
  rw [parts, part]

theorem bytes_part
    (value : Value) :
    value.part.bytes = value.encode := by
  unfold part
  split <;> rfl

end Value

/-! ## Values of a type -/

namespace Ty

theorem length_encode_of_isWord
    {ty : Ty} {value : Value}
    (hword : ty.isWord = true)
    (htyped : ty.HasValue value) :
    value.encode.length = 32 := by
  cases ty with
  | bool =>
      obtain ⟨flag, rfl⟩ := htyped
      simp [Value.encode]
  | int width =>
      obtain ⟨number, rfl, -, -⟩ := htyped
      simp [Value.encode]
  | uint width =>
      obtain ⟨number, rfl, -⟩ := htyped
      simp [Value.encode]
  | fixedBytes width =>
      obtain ⟨word, rfl, -⟩ := htyped
      simp [Value.encode, word.length_toList]
  | address =>
      obtain ⟨address, rfl⟩ := htyped
      simp [Value.encode, address.length_toList]
  | function =>
      obtain ⟨bytes, rfl⟩ := htyped
      simp [Value.encode, bytes.length_toList]
  | bytes => simp [isWord] at hword
  | string => simp [isWord] at hword
  | array item => simp [isWord] at hword
  | fixedArray item count => simp [isWord] at hword
  | tuple items => simp [isWord] at hword

theorem leastWords_of_isWord
    {ty : Ty}
    (hword : ty.isWord = true) :
    ty.leastWords = 1 := by
  cases ty <;> simp_all [isWord, leastWords]

theorem words_of_isWord
    {ty : Ty}
    (hword : ty.isWord = true) :
    ty.words = 1 := by
  cases ty <;> simp_all [isWord, words]

theorem isDynamic_of_isWord
    {ty : Ty}
    (hword : ty.isWord = true) :
    ty.isDynamic = false := by
  cases ty <;> simp_all [isWord, isDynamic]

theorem wordsOf_replicate
    (ty : Ty) (count : Nat) :
    wordsOf (List.replicate count ty) = count * ty.words :=
  replicate_eq_mul_of_cons wordsOf rfl (fun _ _ => rfl) ty count

theorem anyDynamic_eq_of_haveValues
    {types : List Ty} {values : List Value}
    (hsame : ∀ ty ∈ types, ∀ value, ty.HasValue value → value.isDynamic = ty.isDynamic)
    (htyped : HaveValues types values) :
    Value.anyDynamic values = anyDynamic types := by
  induction types generalizing values with
  | nil =>
      obtain rfl : values = [] := htyped
      rfl
  | cons ty rest ih =>
      obtain ⟨first, others, rfl, hfirst, hothers⟩ := htyped
      rw [List.forall_mem_cons] at hsame
      rw [Value.anyDynamic, anyDynamic, hsame.1 first hfirst, ih hsame.2 hothers]

theorem isDynamic_eq_of_hasValue
    (ty : Ty) (value : Value)
    (htyped : ty.HasValue value) :
    value.isDynamic = ty.isDynamic := by
  induction ty using layoutInduction generalizing value with
  | word ty hword =>
      rw [isDynamic_of_isWord hword]
      cases ty <;> first
        | (simp [isWord] at hword; done)
        | (obtain ⟨content, rfl⟩ := htyped; rfl)
        | (obtain ⟨content, rfl, -⟩ := htyped; rfl)
  | bytes =>
      obtain ⟨content, rfl⟩ := htyped
      rfl
  | string =>
      obtain ⟨content, rfl⟩ := htyped
      rfl
  | array item ih =>
      obtain ⟨items, rfl, -⟩ := htyped
      rfl
  | fixedArray item count ih =>
      obtain ⟨items, rfl, hitems⟩ := htyped
      have hall := (haveValues_replicate item count.val items).mpr hitems
      have hsame := anyDynamic_eq_of_haveValues
        (fun ty hmember => List.eq_of_mem_replicate hmember ▸ ih) hall
      rw [anyDynamic_replicate item count.pos] at hsame
      rw [Value.isDynamic, isDynamic, hsame]
  | tuple items ih =>
      obtain ⟨values, rfl, hvalues⟩ := htyped
      rw [Value.isDynamic, isDynamic, anyDynamic_eq_of_haveValues ih hvalues]

/-! ## Static types -/

theorem length_join_of_static
    {types : List Ty} {values : List Value}
    (hsizes : ∀ ty ∈ types, ∀ value, ty.HasValue value → ty.isDynamic = false →
      value.encode.length = 32 * ty.words)
    (hstatic : anyDynamic types = false)
    (htyped : HaveValues types values) :
    (Part.join (Value.parts values)).length = 32 * wordsOf types := by
  induction types generalizing values with
  | nil =>
      obtain rfl : values = [] := htyped
      rfl
  | cons ty rest ih =>
      obtain ⟨first, others, rfl, hfirst, hothers⟩ := htyped
      rw [List.forall_mem_cons] at hsizes
      simp only [anyDynamic, Bool.or_eq_false_iff] at hstatic
      have hsize := hsizes.1 first hfirst hstatic.1
      have hpart : first.part = .inPlace first.encode := by
        unfold Value.part
        rw [isDynamic_eq_of_hasValue ty first hfirst, hstatic.1]
        rfl
      rw [Value.parts_cons, Part.length_join_cons, ih hsizes.2 hstatic.2 hothers, hpart]
      simp only [Part.headSize, Part.tailSize, wordsOf, hsize]
      ring

theorem length_encode_of_static
    (ty : Ty) (value : Value)
    (htyped : ty.HasValue value)
    (hstatic : ty.isDynamic = false) :
    value.encode.length = 32 * ty.words := by
  induction ty using layoutInduction generalizing value with
  | word ty hword => rw [length_encode_of_isWord hword htyped, words_of_isWord hword]
  | bytes => simp [isDynamic] at hstatic
  | string => simp [isDynamic] at hstatic
  | array item ih => simp [isDynamic] at hstatic
  | fixedArray item count ih =>
      obtain ⟨items, rfl, hitems⟩ := htyped
      simp only [isDynamic] at hstatic
      have hall := (haveValues_replicate item count.val items).mpr hitems
      have hnone : anyDynamic (List.replicate count.val item) = false := by
        rw [anyDynamic_replicate item count.pos, hstatic]
      have hlength := length_join_of_static
        (fun ty hmember => List.eq_of_mem_replicate hmember ▸ ih) hnone hall
      rw [Value.encode, hlength, wordsOf_replicate, words, Nat.mul_comm count.val]
  | tuple items ih =>
      obtain ⟨values, rfl, hvalues⟩ := htyped
      simp only [isDynamic] at hstatic
      rw [Value.encode, length_join_of_static ih hstatic hvalues, words]

theorem headSize_part
    {ty : Ty} {value : Value}
    (htyped : ty.HasValue value) :
    value.part.headSize = ty.headSize := by
  unfold Value.part headSize
  rw [isDynamic_eq_of_hasValue ty value htyped]
  by_cases hdynamic : ty.isDynamic = true
  · rw [if_pos hdynamic, if_pos hdynamic]
    rfl
  · rw [if_neg hdynamic, if_neg hdynamic]
    exact length_encode_of_static ty value htyped (by simpa using hdynamic)

/-! ## Least sizes -/

theorem le_length_join
    {types : List Ty} {values : List Value}
    (hsizes : ∀ ty ∈ types, ∀ value, ty.HasValue value →
      32 * ty.leastWords ≤ value.encode.length)
    (htyped : HaveValues types values) :
    32 * leastWordsOf types ≤ (Part.join (Value.parts values)).length := by
  induction types generalizing values with
  | nil => simp [leastWordsOf]
  | cons ty rest ih =>
      obtain ⟨first, others, rfl, hfirst, hothers⟩ := htyped
      rw [List.forall_mem_cons] at hsizes
      have hsize := hsizes.1 first hfirst
      have hpart := first.part.length_bytes_le
      have hrest := ih hsizes.2 hothers
      rw [Value.bytes_part] at hpart
      rw [Value.parts_cons, Part.length_join_cons, leastWordsOf]
      omega

theorem le_length_encode
    (ty : Ty) (value : Value)
    (htyped : ty.HasValue value) :
    32 * ty.leastWords ≤ value.encode.length := by
  induction ty using layoutInduction generalizing value with
  | word ty hword =>
      rw [length_encode_of_isWord hword htyped, leastWords_of_isWord hword]
  | bytes =>
      obtain ⟨content, rfl⟩ := htyped
      simp [Value.encode, leastWords]
  | string =>
      obtain ⟨text, rfl⟩ := htyped
      simp [Value.encode, leastWords]
  | array item ih =>
      obtain ⟨items, rfl, -⟩ := htyped
      simp [Value.encode, leastWords]
  | fixedArray item count ih =>
      obtain ⟨items, rfl, hitems⟩ := htyped
      have hall := (haveValues_replicate item count.val items).mpr hitems
      have hlength := le_length_join
        (fun ty hmember => List.eq_of_mem_replicate hmember ▸ ih) hall
      rw [leastWordsOf_replicate, Nat.mul_comm count.val] at hlength
      rw [Value.encode, leastWords]
      exact hlength
  | tuple items ih =>
      obtain ⟨values, rfl, hvalues⟩ := htyped
      rw [Value.encode, leastWords]
      exact le_length_join ih hvalues

theorem leastWords_pos
    (ty : Ty)
    (hfilled : ty.hasEmptyTuple = false) :
    0 < ty.leastWords := by
  induction ty using layoutInduction with
  | word ty hword => simp [leastWords_of_isWord hword]
  | bytes => simp [leastWords]
  | string => simp [leastWords]
  | array item ih => simp [leastWords]
  | fixedArray item count ih =>
      simp only [hasEmptyTuple] at hfilled
      exact Nat.mul_pos (ih hfilled) count.pos
  | tuple items ih =>
      simp only [hasEmptyTuple, Bool.or_eq_false_iff] at hfilled
      cases items with
      | nil => simp at hfilled
      | cons ty rest =>
          have hrest := (someEmptyTuple_eq_false_iff _).mp hfilled.2
          have hfirst := ih ty List.mem_cons_self (hrest ty List.mem_cons_self)
          simp only [leastWords, leastWordsOf]
          omega

end Ty
end Abi
end MintWatch
