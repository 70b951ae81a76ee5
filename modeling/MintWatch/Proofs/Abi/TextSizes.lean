import Mathlib
import MintWatch.Proofs.Abi.EncodedSize
/-!
# The sizes of texts in encodings

A type without dynamic arrays fixes the length of its encodings up to the texts and byte
strings in a value: each of them takes as many words as hold its bytes, and everything
else takes a number of words that the type alone tells.
-/

namespace MintWatch
namespace Abi

/-- The number of words that hold the bytes of a text. -/
def wordsFor (text : Bytes) : Nat :=
  (text.length + 31) / 32

theorem length_padToWords
    (text : Bytes) :
    (padToWords text).length = 32 * wordsFor text := by
  unfold padToWords wordsFor
  rw [List.length_append, List.length_replicate]
  omega

theorem wordsFor_eq_one_iff
    (text : Bytes) :
    wordsFor text = 1 ↔ 1 ≤ text.length ∧ text.length ≤ 32 := by
  unfold wordsFor
  omega

/-- The number of words that hold texts, each in words of its own. -/
def textWords (texts : List Bytes) : Nat :=
  (texts.map wordsFor).sum

theorem textWords_append
    (first second : List Bytes) :
    textWords (first ++ second) = textWords first + textWords second := by
  unfold textWords
  rw [List.map_append, List.sum_append]

theorem textWords_eq_length
    {texts : List Bytes}
    (hone : ∀ text ∈ texts, 1 ≤ text.length ∧ text.length ≤ 32) :
    textWords texts = texts.length := by
  induction texts with
  | nil => rfl
  | cons text rest ih =>
      rw [List.forall_mem_cons] at hone
      have hfirst := (wordsFor_eq_one_iff text).mpr hone.1
      have hrest := ih hone.2
      unfold textWords at hrest ⊢
      rw [List.map_cons, List.sum_cons, List.length_cons, hfirst, hrest, Nat.add_comm]

namespace Value

mutual

/-- The bytes of each text and byte string in a value, in their order. -/
def texts : Value → List Bytes
  | .bytes value => [value]
  | .string value => [Utf8.encode value]
  | .array items => textsOf items
  | .fixedArray items => textsOf items
  | .tuple items => textsOf items
  | _ => []

/-- The bytes of each text and byte string in the values of a list. -/
def textsOf : List Value → List Bytes
  | [] => []
  | value :: rest => texts value ++ textsOf rest

end

end Value

namespace Ty

mutual

/-- Whether a dynamic array or a function occurs in a type. -/
def hasArrayOrFunction : Ty → Bool
  | .array _ => true
  | .function => true
  | .fixedArray item _ => hasArrayOrFunction item
  | .tuple items => someArrayOrFunction items
  | _ => false

/-- Whether a dynamic array or a function occurs in some type of a list. -/
def someArrayOrFunction : List Ty → Bool
  | [] => false
  | ty :: rest => hasArrayOrFunction ty || someArrayOrFunction rest

end

mutual

/-- The number of texts and byte strings in a value, unless there are dynamic arrays. -/
def textCount : Ty → Nat
  | .bytes => 1
  | .string => 1
  | .fixedArray item count => count.val * textCount item
  | .tuple items => textCountOf items
  | _ => 0

/-- The number of texts and byte strings in the values of a list. -/
def textCountOf : List Ty → Nat
  | [] => 0
  | ty :: rest => textCount ty + textCountOf rest

end

/-- The words that the offset of a value takes. -/
def offsetWords (ty : Ty) : Nat :=
  if ty.isDynamic then 1 else 0

mutual

/-- The number of words in an encoding besides those that hold texts. -/
def plainWords : Ty → Nat
  | .fixedArray item count => count.val * (plainWords item + offsetWords item)
  | .tuple items => plainWordsOf items
  | _ => 1

/-- The number of words in the encoding of a list besides those that hold texts. -/
def plainWordsOf : List Ty → Nat
  | [] => 0
  | ty :: rest => plainWords ty + offsetWords ty + plainWordsOf rest

end

theorem someArrayOrFunction_eq_false_iff
    (types : List Ty) :
    someArrayOrFunction types = false ↔ ∀ ty ∈ types, ty.hasArrayOrFunction = false :=
  forall_iff_of_cons (fun types => someArrayOrFunction types = false) rfl
    (fun ty rest => by rw [someArrayOrFunction, Bool.or_eq_false_iff]) types

theorem textCountOf_replicate
    (ty : Ty) (count : Nat) :
    textCountOf (List.replicate count ty) = count * ty.textCount :=
  replicate_eq_mul_of_cons textCountOf rfl (fun _ _ => rfl) ty count

theorem plainWordsOf_replicate
    (ty : Ty) (count : Nat) :
    plainWordsOf (List.replicate count ty) = count * (ty.plainWords + ty.offsetWords) :=
  replicate_eq_mul_of_cons plainWordsOf rfl (fun _ _ => rfl) ty count

theorem headSize_add_tailSize
    {ty : Ty} {value : Value}
    (htyped : ty.HasValue value) :
    value.part.headSize + value.part.tailSize = 32 * ty.offsetWords + value.encode.length := by
  unfold Value.part offsetWords
  rw [isDynamic_eq_of_hasValue ty value htyped]
  by_cases hdynamic : ty.isDynamic = true
  · rw [if_pos hdynamic, if_pos hdynamic]
    rfl
  · rw [if_neg hdynamic, if_neg hdynamic]
    simp [Part.headSize, Part.tailSize]

/-! ## What a type tells of an encoding -/

/-- Whether the encodings of a type's values have the size that their texts give them. -/
def IsSizedByTexts (ty : Ty) : Prop :=
  ∀ value, ty.HasValue value →
    value.texts.length = ty.textCount ∧
      value.encode.length = 32 * (ty.plainWords + textWords value.texts)

theorem sizes_of_list
    {types : List Ty} {values : List Value}
    (hsizes : ∀ ty ∈ types, ty.IsSizedByTexts)
    (htyped : HaveValues types values) :
    (Value.textsOf values).length = textCountOf types ∧
      (Value.encodeParams values).length =
        32 * (plainWordsOf types + textWords (Value.textsOf values)) := by
  unfold Value.encodeParams
  induction types generalizing values with
  | nil =>
      obtain rfl : values = [] := htyped
      exact ⟨rfl, rfl⟩
  | cons ty rest ih =>
      obtain ⟨first, others, rfl, hfirst, hothers⟩ := htyped
      rw [List.forall_mem_cons] at hsizes
      obtain ⟨hcount, hlength⟩ := hsizes.1 first hfirst
      obtain ⟨hcounts, hlengths⟩ := ih hsizes.2 hothers
      have hpart := headSize_add_tailSize hfirst
      constructor
      · rw [Value.textsOf, List.length_append, hcount, hcounts, textCountOf]
      · rw [Value.parts_cons, Part.length_join_cons, hlengths, hpart, hlength, Value.textsOf,
          textWords_append, plainWordsOf]
        ring

theorem sizes_of_replicate
    {ty : Ty} {count : Nat} {values : List Value}
    (hsizes : ty.IsSizedByTexts)
    (htyped : values.length = count ∧ ∀ value ∈ values, ty.HasValue value) :
    (Value.textsOf values).length = count * ty.textCount ∧
      (Value.encodeParams values).length =
        32 * (count * (ty.plainWords + ty.offsetWords) + textWords (Value.textsOf values)) := by
  rw [← textCountOf_replicate, ← plainWordsOf_replicate]
  apply sizes_of_list
  · intro other hmember
    rw [List.eq_of_mem_replicate hmember]
    exact hsizes
  · exact (haveValues_replicate ty count values).mpr htyped

theorem isSizedByTexts_of_isWord
    {ty : Ty}
    (hword : ty.isWord = true) :
    ty.IsSizedByTexts := by
  intro value htyped
  rw [length_encode_of_isWord hword htyped]
  cases ty <;> first
    | (simp [isWord] at hword; done)
    | (obtain ⟨content, rfl⟩ := htyped; exact ⟨rfl, rfl⟩)
    | (obtain ⟨content, rfl, -⟩ := htyped; exact ⟨rfl, rfl⟩)

theorem isSizedByTexts
    (ty : Ty)
    (hguessable : ty.hasArrayOrFunction = false) :
    ty.IsSizedByTexts := by
  induction ty using layoutInduction with
  | word ty hword => exact isSizedByTexts_of_isWord hword
  | bytes =>
      rintro value ⟨content, rfl⟩
      refine ⟨rfl, ?_⟩
      rw [Value.encode, List.length_append, Part.length_word, length_padToWords]
      simp only [plainWords, Value.texts, textWords, List.map_singleton, List.sum_singleton]
      ring
  | string =>
      rintro value ⟨text, rfl⟩
      refine ⟨rfl, ?_⟩
      rw [Value.encode, List.length_append, Part.length_word, length_padToWords]
      simp only [plainWords, Value.texts, textWords, List.map_singleton, List.sum_singleton]
      ring
  | array item ih => simp [hasArrayOrFunction] at hguessable
  | fixedArray item count ih =>
      rintro value ⟨items, rfl, hitems⟩
      rw [hasArrayOrFunction] at hguessable
      exact sizes_of_replicate (ih hguessable) hitems
  | tuple items ih =>
      rintro value ⟨values, rfl, hvalues⟩
      rw [hasArrayOrFunction, someArrayOrFunction_eq_false_iff] at hguessable
      exact sizes_of_list (fun ty hmember => ih ty hmember (hguessable ty hmember)) hvalues

end Ty
end Abi
end MintWatch
