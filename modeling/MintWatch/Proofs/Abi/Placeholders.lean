import Mathlib
import MintWatch.Call.Decoder
import MintWatch.Proofs.Abi.TextSizes
import MintWatch.Proofs.Fallible
/-!
# Placeholders

A placeholder is a value of its type in which every text is a single byte.  It is built
from parts, from left to right and the parts of a type before the type, and what stops
it is the first part in this order that is a dynamic array, a function, or a fixed array
with more items than a list can hold.  A type that has a value without a list of that
size has no fixed array of the last kind.
-/

namespace MintWatch
namespace Abi
namespace Ty

mutual

/-- A type and what tuples and fixed arrays lead to in it: from left to right, the parts of
a type before the type. -/
def subtypes : Ty → List Ty
  | .fixedArray item count => subtypes item ++ [.fixedArray item count]
  | .tuple items => subtypesOf items ++ [.tuple items]
  | ty => [ty]

/-- The subtypes of each type of a list in turn. -/
def subtypesOf : List Ty → List Ty
  | [] => []
  | ty :: rest => subtypes ty ++ subtypesOf rest

end

def isArrayOrFunction : Ty → Bool
  | .array _ => true
  | .function => true
  | _ => false

/-- Whether a list cannot hold the items of a fixed array. -/
def isOversized : Ty → Bool
  | .fixedArray _ count => Value.listLimit < count.val
  | _ => false

/-- The first dynamic array or function among the subtypes of some types. -/
def firstUnguessable? (types : List Ty) : Option Ty :=
  (subtypesOf types).find? isArrayOrFunction

/-- Whether a type has no placeholder although its parts have some. -/
def isStop (ty : Ty) : Bool :=
  ty.isArrayOrFunction || ty.isOversized

/-- The first subtype of some types that has no placeholder. -/
def firstStop? (types : List Ty) : Option Ty :=
  (subtypesOf types).find? isStop

/-- Why a type has no placeholder although its parts have some. -/
def stopReason (ty : Ty) : NoPlaceholder :=
  if ty.isOversized then .oversized else .unsupported ty

/-! ## Building -/

/-- Whether a result is the reason of the part that stops it, or a good one without such a
part. -/
structure Builds {α : Type} (stop? : Option Ty) (good : α → Prop)
    (result : Except NoPlaceholder α) : Prop where
  stopped : ∀ stop, stop? = some stop → result = .error stop.stopReason
  built : stop? = none → ∃ value, result = .ok value ∧ good value

section Building

variable {α β : Type} {stop? later? : Option Ty} {good : α → Prop} {better : β → Prop}
  {result : Except NoPlaceholder α}

theorem builds_ok
    {value : α}
    (hgood : good value) :
    Builds none good (.ok value) where
  stopped := by simp
  built := fun _ => ⟨value, rfl, hgood⟩

theorem builds_error
    (stop : Ty) (good : α → Prop) :
    Builds (some stop) good (.error stop.stopReason) where
  stopped := by simp
  built := by simp

theorem Builds.bind
    {next : α → Except NoPlaceholder β}
    (hresult : Builds stop? good result)
    (hnext : ∀ value, good value → Builds later? better (next value)) :
    Builds (stop?.or later?) better (result.bind next) := by
  cases stop? with
  | some stop =>
      rw [hresult.stopped stop rfl]
      exact builds_error stop better
  | none =>
      obtain ⟨value, rfl, hgood⟩ := hresult.built rfl
      exact hnext value hgood

theorem Builds.map
    {f : α → β}
    (hresult : Builds stop? good result)
    (hf : ∀ value, good value → better (f value)) :
    Builds stop? better (result.map f) := by
  cases stop? with
  | some stop =>
      rw [hresult.stopped stop rfl]
      exact builds_error stop better
  | none =>
      obtain ⟨value, rfl, hgood⟩ := hresult.built rfl
      exact builds_ok (hf value hgood)

end Building

/-- Whether a value is one of a type, and every text in it takes one word. -/
def IsPlaceholder (ty : Ty) (value : Value) : Prop :=
  ty.HasValue value ∧ ∀ text ∈ value.texts, 1 ≤ text.length ∧ text.length ≤ 32

/-- Whether values are placeholders of types one by one. -/
def ArePlaceholders (types : List Ty) (values : List Value) : Prop :=
  HaveValues types values ∧ ∀ text ∈ Value.textsOf values, 1 ≤ text.length ∧ text.length ≤ 32

theorem builds_placeholders_of_forall
    {types : List Ty}
    (heach : ∀ ty ∈ types, Builds (ty.subtypes.find? isStop) ty.IsPlaceholder ty.placeholder) :
    Builds (firstStop? types) (ArePlaceholders types) (placeholders types) := by
  unfold firstStop?
  induction types with
  | nil => exact builds_ok ⟨rfl, by simp [Value.textsOf]⟩
  | cons ty rest ih =>
      rw [List.forall_mem_cons] at heach
      rw [placeholders, subtypesOf, List.find?_append]
      refine heach.1.bind fun value hvalue => (ih heach.2).map fun values hvalues => ?_
      refine ⟨⟨value, values, rfl, hvalue.1, hvalues.1⟩, ?_⟩
      rw [Value.textsOf, List.forall_mem_append]
      exact ⟨hvalue.2, hvalues.2⟩

theorem texts_replicate
    {value : Value} {text : Bytes} (count : Nat)
    (hmember : text ∈ Value.textsOf (List.replicate count value)) :
    text ∈ value.texts := by
  induction count with
  | zero => simp [Value.textsOf] at hmember
  | succ count ih =>
      rw [List.replicate_succ, Value.textsOf, List.mem_append] at hmember
      exact hmember.elim id ih

theorem isPlaceholder_replicate
    {item : Ty} {count : Count} {value : Value}
    (hvalue : item.IsPlaceholder value) :
    (fixedArray item count).IsPlaceholder (.fixedArray (List.replicate count.val value)) := by
  refine ⟨⟨_, rfl, List.length_replicate, ?_⟩, ?_⟩
  · intro one hmember
    rw [List.eq_of_mem_replicate hmember]
    exact hvalue.1
  · intro text hmember
    exact hvalue.2 text (texts_replicate count.val hmember)

theorem builds_copies
    {item : Ty} {value : Value}
    (count : Count)
    (hvalue : item.IsPlaceholder value) :
    Builds ([fixedArray item count].find? isStop) (fixedArray item count).IsPlaceholder
      (if Value.listLimit < count.val then .error .oversized
        else .ok (.fixedArray (List.replicate count.val value))) := by
  by_cases hover : Value.listLimit < count.val
  · have hstop : (fixedArray item count).isOversized = true := by
      simp [isOversized, hover]
    have hreason : (fixedArray item count).stopReason = .oversized := by
      rw [stopReason, if_pos hstop]
    rw [if_pos hover, List.find?_cons_of_pos (by rw [isStop, hstop, Bool.or_true]), ← hreason]
    exact builds_error _ _
  · have hfits : ¬((fixedArray item count).isStop = true) := by
      simp [isStop, isArrayOrFunction, isOversized, hover]
    rw [if_neg hover, List.find?_cons_of_neg hfits]
    exact builds_ok (isPlaceholder_replicate hvalue)

theorem builds_placeholder_of_isWord
    {ty : Ty}
    (hword : ty.isWord = true) :
    Builds (ty.subtypes.find? isStop) ty.IsPlaceholder ty.placeholder := by
  cases ty with
  | bool => exact builds_ok ⟨⟨_, rfl⟩, by simp [Value.texts]⟩
  | int width =>
      have hpos : (0 : Int) < 2 ^ (width.bits - 1) := by positivity
      exact builds_ok ⟨⟨0, rfl, by omega, hpos⟩, by simp [Value.texts]⟩
  | uint width => exact builds_ok ⟨⟨0, rfl, by positivity⟩, by simp [Value.texts]⟩
  | fixedBytes width =>
      refine builds_ok ⟨⟨_, rfl, ?_⟩, by simp [Value.texts]⟩
      rw [List.all_eq_true]
      intro byte hmember
      rw [List.eq_of_mem_replicate (List.mem_of_mem_drop hmember), beq_self_eq_true]
  | address => exact builds_ok ⟨⟨_, rfl⟩, by simp [Value.texts]⟩
  | function => exact builds_error _ _
  | bytes => simp [isWord] at hword
  | string => simp [isWord] at hword
  | array item => simp [isWord] at hword
  | fixedArray item count => simp [isWord] at hword
  | tuple items => simp [isWord] at hword

theorem builds_placeholder
    (ty : Ty) :
    Builds (ty.subtypes.find? isStop) ty.IsPlaceholder ty.placeholder := by
  induction ty using layoutInduction with
  | word ty hword => exact builds_placeholder_of_isWord hword
  | bytes => exact builds_ok ⟨⟨_, rfl⟩, by simp [Value.texts]⟩
  | string =>
      have hone : (Utf8.encode "0").length = 1 := by decide
      exact builds_ok ⟨⟨_, rfl⟩, by simp [Value.texts, hone]⟩
  | array item ih => exact builds_error _ _
  | fixedArray item count ih =>
      rw [subtypes, List.find?_append, placeholder]
      exact ih.bind fun value hvalue => builds_copies count hvalue
  | tuple items ih =>
      have hthis : ¬((tuple items).isStop = true) := by
        simp [isStop, isArrayOrFunction, isOversized]
      rw [subtypes, List.find?_append, List.find?_cons_of_neg hthis, List.find?_nil,
        Option.or_none, placeholder]
      exact (builds_placeholders_of_forall ih).map fun values hvalues =>
        ⟨⟨values, rfl, hvalues.1⟩, hvalues.2⟩

/-- The first subtype that has no placeholder is the reason why there are none for the
types; without one there are placeholders. -/
theorem builds_placeholders
    (types : List Ty) :
    Builds (firstStop? types) (ArePlaceholders types) (placeholders types) :=
  builds_placeholders_of_forall fun ty _ => builds_placeholder ty

/-! ## What stops a placeholder -/

theorem someArrayOrFunction_eq_any_of_forall
    {types : List Ty}
    (heach : ∀ ty ∈ types, ty.hasArrayOrFunction = ty.subtypes.any isArrayOrFunction) :
    someArrayOrFunction types = (subtypesOf types).any isArrayOrFunction := by
  induction types with
  | nil => rfl
  | cons ty rest ih =>
      rw [List.forall_mem_cons] at heach
      rw [someArrayOrFunction, subtypesOf, List.any_append, heach.1, ih heach.2]

theorem hasArrayOrFunction_eq_any
    (ty : Ty) :
    ty.hasArrayOrFunction = ty.subtypes.any isArrayOrFunction := by
  induction ty using layoutInduction with
  | word ty hword =>
      cases ty <;> simp [isWord] at hword <;>
        simp [hasArrayOrFunction, subtypes, isArrayOrFunction]
  | bytes => rfl
  | string => rfl
  | array item ih => rfl
  | fixedArray item count ih =>
      simp [hasArrayOrFunction, subtypes, ih, isArrayOrFunction]
  | tuple items ih =>
      simp [hasArrayOrFunction, subtypes, someArrayOrFunction_eq_any_of_forall ih,
        isArrayOrFunction]

theorem firstUnguessable?_eq_none_iff
    {types : List Ty} :
    firstUnguessable? types = none ↔ someArrayOrFunction types = false := by
  rw [someArrayOrFunction_eq_any_of_forall fun ty _ => hasArrayOrFunction_eq_any ty]
  simp [firstUnguessable?, List.find?_eq_none]

theorem firstStop?_eq_firstUnguessable?
    {types : List Ty}
    (hfits : ∀ part ∈ subtypesOf types, part.isOversized = false) :
    firstStop? types = firstUnguessable? types :=
  List.find?_congr fun part hpart => by rw [isStop, hfits part hpart, Bool.or_false]

end Ty

/-! ## Values that can be held -/

namespace Value

mutual

/-- Whether no list in a value has more items than a list can hold.  No other values
exist. -/
def isHeld : Value → Bool
  | .array items => items.length ≤ listLimit && areHeld items
  | .fixedArray items => items.length ≤ listLimit && areHeld items
  | .tuple items => items.length ≤ listLimit && areHeld items
  | _ => true

/-- Whether each value of a list can be held. -/
def areHeld : List Value → Bool
  | [] => true
  | value :: rest => isHeld value && areHeld rest

end

theorem areHeld_eq_true_iff
    (values : List Value) :
    areHeld values = true ↔ ∀ value ∈ values, value.isHeld = true :=
  forall_iff_of_cons (fun values => areHeld values = true) rfl
    (fun value rest => by rw [areHeld, Bool.and_eq_true]) values

end Value

namespace Ty

/-- Whether the arrays that lead to the items of a type can be held if a value of it can. -/
def FitsItsValues (ty : Ty) : Prop :=
  ∀ value, ty.HasValue value → value.isHeld = true →
    ∀ part ∈ ty.subtypes, part.isOversized = false

theorem subtypesOf_fit_of_forall
    {types : List Ty} {values : List Value}
    (hfits : ∀ ty ∈ types, ty.FitsItsValues)
    (htyped : HaveValues types values)
    (hheld : Value.areHeld values = true) :
    ∀ part ∈ subtypesOf types, part.isOversized = false := by
  induction types generalizing values with
  | nil => simp [subtypesOf]
  | cons ty rest ih =>
      obtain ⟨first, others, rfl, hfirst, hothers⟩ := htyped
      rw [Value.areHeld, Bool.and_eq_true] at hheld
      rw [List.forall_mem_cons] at hfits
      rw [subtypesOf, List.forall_mem_append]
      exact ⟨hfits.1 first hfirst hheld.1, ih hfits.2 hothers hheld.2⟩

theorem fitsItsValues
    (ty : Ty) :
    ty.FitsItsValues := by
  induction ty using layoutInduction with
  | word ty hword =>
      intro value _ _
      cases ty <;> simp [isWord] at hword <;> simp [subtypes, isOversized]
  | bytes => simp [FitsItsValues, subtypes, isOversized]
  | string => simp [FitsItsValues, subtypes, isOversized]
  | array item ih => simp [FitsItsValues, subtypes, isOversized]
  | fixedArray item count ih =>
      rintro value ⟨items, rfl, hlength, hitems⟩ hheld
      rw [Value.isHeld, Bool.and_eq_true, decide_eq_true_iff, Value.areHeld_eq_true_iff] at hheld
      -- There is at least one item, so the item type has a value too.
      obtain ⟨first, hfirst⟩ := List.exists_mem_of_length_pos (hlength ▸ count.pos)
      rw [subtypes, List.forall_mem_append, List.forall_mem_singleton]
      refine ⟨ih first (hitems first hfirst) (hheld.2 first hfirst), ?_⟩
      rw [isOversized, decide_eq_false_iff_not, ← hlength]
      exact Nat.not_lt.mpr hheld.1
  | tuple items ih =>
      rintro value ⟨values, rfl, hvalues⟩ hheld
      rw [Value.isHeld, Bool.and_eq_true] at hheld
      rw [subtypes, List.forall_mem_append, List.forall_mem_singleton]
      exact ⟨subtypesOf_fit_of_forall ih hvalues hheld.2, rfl⟩

theorem subtypesOf_fit
    {types : List Ty} {values : List Value}
    (htyped : HaveValues types values)
    (hheld : Value.areHeld values = true) :
    ∀ part ∈ subtypesOf types, part.isOversized = false :=
  subtypesOf_fit_of_forall (fun ty _ => fitsItsValues ty) htyped hheld

end Ty
end Abi
end MintWatch
