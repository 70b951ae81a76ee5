import Mathlib
import MintWatch.Abi.Encoding
import MintWatch.Abi.Layout
import MintWatch.Proofs.Lists
/-!
# Values of a type

Which values inhabit a type, how deeply a type nests, and how proofs go by cases on a
type.  Six of the type formers stand for one word each and differ only in what the word
means, so the induction below has a single case for all of them; lists of one repeated
type are treated as parameter lists, so arrays need no argument of their own.
-/

namespace MintWatch
namespace Abi

/-- The width of one byte. -/
def Width.byte : Width :=
  ⟨1, by decide, by decide⟩

namespace Ty

theorem function_le_word : 24 ≤ 32 := by
  decide

/-- Whether values are laid out as one word. -/
def isWord : Ty → Bool
  | .bool => true
  | .int _ => true
  | .uint _ => true
  | .fixedBytes _ => true
  | .address => true
  | .function => true
  | _ => false

/-- What a word means as a value of a type of one word. -/
def wordValue : Ty → Word → Value
  | .bool, word => .bool (word.toNat != 0)
  | .int width, word => .int (Word.toInt word) width.bits
  | .uint width, word => .uint word.toNat width.bits
  | .fixedBytes width, word => .fixedBytes word width.bytes
  | .address, word => .address (word.drop 12)
  | .function, word => .function (word.take 24 function_le_word)
  | _, _ => default

mutual

/-- Whether a value inhabits a type. -/
def HasValue : Ty → Value → Prop
  | .bool, value => ∃ flag, value = .bool flag
  | .int width, value =>
    ∃ number : Int, value = .int number width.bits ∧
      -(2 ^ (width.bits - 1) : Int) ≤ number ∧ number < 2 ^ (width.bits - 1)
  | .uint width, value =>
    ∃ number : Nat, value = .uint number width.bits ∧ number < 2 ^ width.bits
  | .fixedBytes width, value =>
    ∃ word : Word, value = .fixedBytes word width.bytes ∧
      ((word.toList.drop width.bytes).all (· == 0)) = true
  | .address, value => ∃ address, value = .address address
  | .function, value => ∃ bytes, value = .function bytes
  | .bytes, value => ∃ bytes, value = .bytes bytes
  | .string, value => ∃ text, value = .string text
  | .array item, value => ∃ items, value = .array items ∧ ∀ one ∈ items, HasValue item one
  | .fixedArray item count, value =>
    ∃ items, value = .fixedArray items ∧ items.length = count.val ∧
      ∀ one ∈ items, HasValue item one
  | .tuple types, value => ∃ items, value = .tuple items ∧ HaveValues types items

/-- Whether values inhabit types one by one. -/
def HaveValues : List Ty → List Value → Prop
  | [], values => values = []
  | ty :: rest, values =>
    ∃ first others, values = first :: others ∧ HasValue ty first ∧ HaveValues rest others

end

mutual

/-- Whether an empty tuple occurs in a type. -/
def hasEmptyTuple : Ty → Bool
  | .array item => hasEmptyTuple item
  | .fixedArray item _ => hasEmptyTuple item
  | .tuple items => items.isEmpty || someEmptyTuple items
  | _ => false

/-- Whether an empty tuple occurs in some type of a list. -/
def someEmptyTuple : List Ty → Bool
  | [] => false
  | ty :: rest => hasEmptyTuple ty || someEmptyTuple rest

end

mutual

/-- The number of frames that are open inside each other while a value is read. -/
def levels : Ty → Nat
  | .bytes => 1
  | .string => 1
  | .array item => 2 + levels item
  | .fixedArray item _ => 1 + levels item
  | .tuple items => 1 + deepest items
  | _ => 0

/-- The largest number of levels of the types of a list. -/
def deepest : List Ty → Nat
  | [] => 0
  | ty :: rest => max (levels ty) (deepest rest)

end

theorem layoutInduction
    {motive : Ty → Prop}
    (word : ∀ ty, ty.isWord = true → motive ty)
    (bytes : motive .bytes)
    (string : motive .string)
    (array : ∀ item, motive item → motive (.array item))
    (fixedArray : ∀ item count, motive item → motive (.fixedArray item count))
    (tuple : ∀ items, (∀ item ∈ items, motive item) → motive (.tuple items))
    (ty : Ty) :
    motive ty :=
  @Ty.rec motive (fun items => ∀ item ∈ items, motive item)
    (word _ rfl) (fun _ => word _ rfl) (fun _ => word _ rfl) (fun _ => word _ rfl)
    (word _ rfl) (word _ rfl) bytes string array fixedArray tuple
    (fun _ hmember => absurd hmember List.not_mem_nil)
    (fun _ _ hfirst hrest => List.forall_mem_cons.mpr ⟨hfirst, hrest⟩) ty

/-! ## Lists of one type -/

theorem haveValues_replicate
    (ty : Ty) (count : Nat) (values : List Value) :
    HaveValues (List.replicate count ty) values ↔
      values.length = count ∧ ∀ value ∈ values, HasValue ty value := by
  induction count generalizing values with
  | zero =>
      simp only [List.replicate_zero, HaveValues, List.length_eq_zero_iff]
      constructor
      · intro hnil
        simp [hnil]
      · exact fun h => h.1
  | succ count ih =>
      simp only [List.replicate_succ, HaveValues, ih]
      constructor
      · rintro ⟨first, others, rfl, hfirst, hlength, hothers⟩
        exact ⟨by simp [hlength], List.forall_mem_cons.mpr ⟨hfirst, hothers⟩⟩
      · rintro ⟨hlength, hvalues⟩
        obtain ⟨first, others, rfl⟩ := List.exists_cons_of_length_eq_add_one hlength
        rw [List.forall_mem_cons] at hvalues
        exact ⟨first, others, rfl, hvalues.1, by simpa using hlength, hvalues.2⟩

theorem haveValues_length
    {types : List Ty} {values : List Value}
    (htyped : HaveValues types values) :
    values.length = types.length := by
  induction types generalizing values with
  | nil => simp [show values = [] from htyped]
  | cons ty rest ih =>
      obtain ⟨first, others, rfl, -, hothers⟩ := htyped
      simp [ih hothers]

theorem hasValue_of_getElem?
    {types : List Ty} {values : List Value} {index : Nat} {ty : Ty} {value : Value}
    (htyped : HaveValues types values)
    (hty : types[index]? = some ty)
    (hvalue : values[index]? = some value) :
    ty.HasValue value := by
  induction types generalizing values index with
  | nil => simp at hty
  | cons first rest ih =>
      obtain ⟨head, others, rfl, hhead, hothers⟩ := htyped
      cases index with
      | zero =>
          rw [List.getElem?_cons_zero, Option.some.injEq] at hty hvalue
          rw [← hty, ← hvalue]
          exact hhead
      | succ index =>
          rw [List.getElem?_cons_succ] at hty hvalue
          exact ih hothers hty hvalue

theorem haveValues_cons_iff
    {types : List Ty} {value : Value} {values : List Value} :
    HaveValues types (value :: values) ↔
      ∃ ty rest, types = ty :: rest ∧ ty.HasValue value ∧ HaveValues rest values := by
  cases types with
  | nil => simp [HaveValues]
  | cons ty rest =>
      simp only [HaveValues, List.cons.injEq]
      constructor
      · intro htyped
        obtain ⟨first, others, ⟨rfl, rfl⟩, hfirst, hothers⟩ := htyped
        exact ⟨ty, rest, ⟨rfl, rfl⟩, hfirst, hothers⟩
      · intro htyped
        obtain ⟨_, _, ⟨rfl, rfl⟩, hfirst, hothers⟩ := htyped
        exact ⟨value, values, ⟨rfl, rfl⟩, hfirst, hothers⟩

theorem someEmptyTuple_eq_false_iff
    (types : List Ty) :
    someEmptyTuple types = false ↔ ∀ ty ∈ types, ty.hasEmptyTuple = false :=
  forall_iff_of_cons (fun types => someEmptyTuple types = false) rfl
    (fun ty rest => by rw [someEmptyTuple, Bool.or_eq_false_iff]) types

theorem deepest_le_iff
    (types : List Ty) (limit : Nat) :
    deepest types ≤ limit ↔ ∀ ty ∈ types, ty.levels ≤ limit :=
  forall_iff_of_cons (fun types => deepest types ≤ limit) (Nat.zero_le limit)
    (fun ty rest => by rw [deepest, Nat.max_le]) types

theorem someEmptyTuple_replicate
    {ty : Ty}
    (count : Nat)
    (hfilled : ty.hasEmptyTuple = false) :
    someEmptyTuple (List.replicate count ty) = false := by
  rw [someEmptyTuple_eq_false_iff]
  intro other hmember
  rw [List.eq_of_mem_replicate hmember, hfilled]

theorem deepest_replicate_le
    (ty : Ty) (count : Nat) :
    deepest (List.replicate count ty) ≤ ty.levels := by
  rw [deepest_le_iff]
  intro other hmember
  rw [List.eq_of_mem_replicate hmember]

theorem anyDynamic_replicate
    (ty : Ty) {count : Nat}
    (hpos : 0 < count) :
    anyDynamic (List.replicate count ty) = ty.isDynamic := by
  induction count with
  | zero => omega
  | succ count ih =>
      rw [List.replicate_succ, anyDynamic]
      cases count with
      | zero => simp [anyDynamic]
      | succ count => rw [ih (by omega), Bool.or_self]

theorem leastWordsOf_replicate
    (ty : Ty) (count : Nat) :
    leastWordsOf (List.replicate count ty) = count * ty.leastWords :=
  replicate_eq_mul_of_cons leastWordsOf rfl (fun _ _ => rfl) ty count

end Ty
end Abi
end MintWatch
