import Mathlib
import MintWatch.Proofs.Abi.EncodedSize
import MintWatch.Proofs.Abi.Walks
/-!
# Static parameter lists, word by word

A static parameter list is laid out as one word after the other, and the types say which
word is of which type.  Reading looks at whole words, but for those of function values, of
which it takes the first twenty-four bytes and no check looks at the rest.  Clearing those
bytes gives the encoding of the values that are read; and bytes that are the same once they
are cleared are read to the same values.
-/

namespace MintWatch
namespace Abi
namespace Ty

mutual

/-- The types of the words that a static value is laid out in, from the left. -/
def wordTypes : Ty → List Ty
  | .fixedArray item count => (List.replicate count.val (wordTypes item)).flatten
  | .tuple items => wordTypesOf items
  | ty => [ty]

def wordTypesOf : List Ty → List Ty
  | [] => []
  | ty :: rest => wordTypes ty ++ wordTypesOf rest

end

/-- The number of bytes that are read of a word, from the left. -/
def readBytes : Ty → Nat
  | .function => 24
  | _ => 32

theorem readBytes_of_ne_function
    {ty : Ty}
    (hchecked : ty ≠ .function) :
    ty.readBytes = 32 := by
  unfold readBytes
  split
  · exact absurd rfl hchecked
  · rfl

end Ty

/-- The words of a byte string, with the bytes that are not read set to zero. -/
def cleared : List Ty → Bytes → Bytes
  | [], _ => []
  | ty :: rest, data =>
    data.take ty.readBytes ++ List.replicate (32 - ty.readBytes) 0 ++ cleared rest (data.drop 32)

/-! ## Cleared bytes -/

section Cleared

variable {data other : Bytes}

theorem cleared_append
    (first second : List Ty) (data : Bytes) :
    cleared (first ++ second) data =
      cleared first data ++ cleared second (data.drop (32 * first.length)) := by
  induction first generalizing data with
  | nil => simp [cleared]
  | cons ty rest ih =>
      have hdrop : 32 * (ty :: rest).length = 32 + 32 * rest.length := by
        rw [List.length_cons]
        ring
      simp only [List.cons_append, cleared, ih, List.append_assoc, hdrop, List.drop_drop]

theorem length_cleared_congr
    (types : List Ty)
    (hlength : data.length = other.length) :
    (cleared types data).length = (cleared types other).length := by
  induction types generalizing data other with
  | nil => rfl
  | cons ty rest ih =>
      have hrest : (data.drop 32).length = (other.drop 32).length := by
        rw [List.length_drop, List.length_drop, hlength]
      simp only [cleared, List.length_append, List.length_take, hlength, ih hrest]

theorem cleared_append_eq_iff
    (first second : List Ty)
    (hlength : data.length = other.length) :
    cleared (first ++ second) data = cleared (first ++ second) other ↔
      cleared first data = cleared first other ∧
        cleared second (data.drop (32 * first.length)) =
          cleared second (other.drop (32 * first.length)) := by
  rw [cleared_append, cleared_append]
  constructor
  · exact fun hsame => List.append_inj hsame (length_cleared_congr first hlength)
  · rintro ⟨hfirst, hsecond⟩
    rw [hfirst, hsecond]

/-- Without function values, every byte is read. -/
theorem cleared_eq_take
    {types : List Ty}
    (hchecked : .function ∉ types)
    (data : Bytes) :
    cleared types data = data.take (32 * types.length) := by
  induction types generalizing data with
  | nil => rfl
  | cons ty rest ih =>
      rw [List.mem_cons, not_or] at hchecked
      have hall : ty.readBytes = 32 := Ty.readBytes_of_ne_function (Ne.symm hchecked.1)
      rw [cleared, hall, ih hchecked.2, List.length_cons, Nat.mul_succ, Nat.add_comm,
        List.take_add]
      simp

/-- A byte behind a function value can be changed. -/
theorem exists_ne_of_function_mem
    {types : List Ty}
    (hfunction : .function ∈ types)
    (hlength : data.length = 32 * types.length) :
    ∃ other, other ≠ data ∧ other.length = data.length ∧
      cleared types other = cleared types data := by
  induction types generalizing data with
  | nil => cases hfunction
  | cons ty rest ih =>
      rw [List.length_cons] at hlength
      by_cases hfirst : ty = .function
      · subst hfirst
        have hlast : 31 < data.length := by omega
        have hfront : (data.set 31 (data[31] + 1)).take 24 = data.take 24 :=
          List.take_set_of_le (by decide)
        have hback : (data.set 31 (data[31] + 1)).drop 32 = data.drop 32 :=
          List.drop_set_of_lt (by decide)
        refine ⟨data.set 31 (data[31] + 1), ?_, List.length_set, ?_⟩
        · intro hsame
          have hbyte : (data.set 31 (data[31] + 1))[31]? = data[31]? := by rw [hsame]
          rw [List.getElem?_set_self hlast, List.getElem?_eq_getElem hlast,
            Option.some.injEq] at hbyte
          simp at hbyte
        · simp only [cleared, Ty.readBytes, hfront, hback]
      · have hlater : .function ∈ rest :=
          (List.mem_cons.mp hfunction).resolve_left (Ne.symm hfirst)
        have hrest : (data.drop 32).length = 32 * rest.length := by
          rw [List.length_drop]
          omega
        have hword : (data.take 32).length = 32 := by
          rw [List.length_take]
          omega
        obtain ⟨other, hother, hsize, hsame⟩ := ih hlater hrest
        refine ⟨data.take 32 ++ other, ?_, ?_, ?_⟩
        · intro heq
          have hback := congrArg (List.drop 32) heq
          rw [List.drop_left' hword] at hback
          exact hother hback
        · rw [List.length_append, hword, hsize, List.length_drop]
          omega
        · rw [cleared, cleared, Ty.readBytes_of_ne_function hfirst, List.take_left' hword,
            List.drop_left' hword, hsame]

theorem cleared_eq_self
    {types : List Ty}
    (hchecked : .function ∉ types)
    (hlength : data.length = 32 * types.length) :
    cleared types data = data := by
  rw [cleared_eq_take hchecked, ← hlength, List.take_length]

/-- Words are determined by what is read of them exactly if there is no function value. -/
theorem determined_by_cleared_iff
    {types : List Ty}
    (hlength : data.length = 32 * types.length) :
    (∀ other : Bytes, other.length = data.length →
        cleared types other = cleared types data → other = data) ↔
      .function ∉ types := by
  constructor
  · intro hdetermined hfunction
    obtain ⟨other, hdiffers, hother, hsame⟩ := exists_ne_of_function_mem hfunction hlength
    exact hdiffers (hdetermined other hother hsame)
  · intro hchecked other hother hsame
    rw [cleared_eq_self hchecked (hother.trans hlength), cleared_eq_self hchecked hlength] at hsame
    exact hsame

end Cleared

/-! ## Words -/

namespace Ty

theorem cleared_word
    {ty : Ty} {data : Bytes} {word : Word}
    (hword : word.toList = data.take 32) :
    cleared [ty] data = cleared [ty] word.toList := by
  have hle : ty.readBytes ≤ 32 := by
    cases ty <;> simp [readBytes]
  rw [hword]
  simp [cleared, List.take_take, hle]

theorem cleared_word_eq_self
    {ty : Ty}
    (word : Word)
    (hchecked : ty ≠ .function) :
    cleared [ty] word.toList = word.toList := by
  apply cleared_eq_self
  · simpa [eq_comm] using hchecked
  · exact word.length_toList

theorem encode_wordValue
    {ty : Ty} {word : Word}
    (hword : ty.isWord = true)
    (hcanonical : isCanonical ty word = true) :
    (ty.wordValue word).encode = cleared [ty] word.toList := by
  by_cases hfunction : ty = .function
  · subst hfunction
    simp [wordValue, Value.encode, cleared, readBytes, Octets.take]
  · have hencode := ((isCanonical_iff_wordValue hword hfunction).mp hcanonical).2
    rw [hencode, cleared_word_eq_self word hfunction]

theorem wordValue_congr
    {ty : Ty} {word other : Word}
    (hsame : cleared [ty] word.toList = cleared [ty] other.toList) :
    ty.wordValue word = ty.wordValue other ∧ isCanonical ty word = isCanonical ty other := by
  by_cases hfunction : ty = .function
  · subst hfunction
    have htake : word.toList.take 24 = other.toList.take 24 := by
      simpa [cleared, readBytes] using hsame
    refine ⟨?_, rfl⟩
    simp only [wordValue, Value.function.injEq]
    exact Octets.eq_of_toList_eq htake
  · rw [cleared_word_eq_self word hfunction, cleared_word_eq_self other hfunction] at hsame
    rw [Octets.eq_of_toList_eq hsame]
    exact ⟨rfl, rfl⟩

/-! ## Types and their words -/

theorem wordTypesOf_replicate
    (ty : Ty) (count : Nat) :
    wordTypesOf (List.replicate count ty) = (List.replicate count ty.wordTypes).flatten := by
  induction count with
  | zero => rfl
  | succ count ih => simp [List.replicate_succ, wordTypesOf, ih]

theorem wordTypes_of_isWord
    {ty : Ty}
    (hword : ty.isWord = true) :
    ty.wordTypes = [ty] := by
  cases ty <;> simp_all [isWord, wordTypes]

theorem length_wordTypesOf_eq
    {types : List Ty}
    (hlengths : ∀ ty ∈ types, ty.wordTypes.length = ty.words) :
    (wordTypesOf types).length = wordsOf types := by
  induction types with
  | nil => rfl
  | cons ty rest ih =>
      rw [List.forall_mem_cons] at hlengths
      rw [wordTypesOf, wordsOf, List.length_append, hlengths.1, ih hlengths.2]

theorem length_wordTypes
    (ty : Ty) :
    ty.wordTypes.length = ty.words := by
  induction ty using layoutInduction with
  | word ty hword => rw [wordTypes_of_isWord hword, words_of_isWord hword, List.length_singleton]
  | bytes => rfl
  | string => rfl
  | array item ih => rfl
  | fixedArray item count ih =>
      have heach : ∀ ty ∈ List.replicate count.val item, ty.wordTypes.length = ty.words :=
        fun ty hmember => List.eq_of_mem_replicate hmember ▸ ih
      rw [wordTypes, ← wordTypesOf_replicate, length_wordTypesOf_eq heach, wordsOf_replicate,
        words, Nat.mul_comm]
  | tuple items ih => exact length_wordTypesOf_eq ih

theorem length_wordTypesOf
    (types : List Ty) :
    (wordTypesOf types).length = wordsOf types :=
  length_wordTypesOf_eq fun ty _ => length_wordTypes ty

theorem headSize_of_static
    {ty : Ty}
    (hstatic : ty.isDynamic = false) :
    ty.headSize = 32 * ty.wordTypes.length := by
  rw [headSize, hstatic, length_wordTypes]
  rfl

/-! ## Readings of static types -/

section Readings

variable {frame : Frame} {position : Nat} {value : Value} {leaves : List Leaf}

theorem trace_fixedArray_of_static
    {item : Ty} {count : Count}
    (hstatic : item.isDynamic = false) :
    trace (.fixedArray item count) frame position = .ok (value, leaves) ↔
      ∃ inner values, frame.openAt position = .ok inner ∧
        traceItems (List.replicate count.val item) inner 0 = .ok (values, leaves) ∧
        value = .fixedArray values := by
  rw [trace_fixedArray_eq_ok_iff, hstatic]
  rfl

theorem trace_tuple_of_static
    {types : List Ty}
    (hstatic : anyDynamic types = false) :
    trace (.tuple types) frame position = .ok (value, leaves) ↔
      ∃ inner values, frame.openAt position = .ok inner ∧
        traceItems types inner 0 = .ok (values, leaves) ∧ value = .tuple values := by
  rw [trace_tuple_eq_ok_iff, hstatic]
  rfl

end Readings

/-! ## Encodings of what was read -/

theorem join_parts_of_static
    {values : List Value}
    (hstatic : Value.anyDynamic values = false) :
    Part.join (Value.parts values) = values.flatMap Value.encode := by
  have hparts : ∀ offset, Part.heads offset (Value.parts values) = values.flatMap Value.encode ∧
      Part.tails (Value.parts values) = [] := by
    induction values with
    | nil => exact fun offset => ⟨rfl, rfl⟩
    | cons value rest ih =>
        simp only [Value.anyDynamic, Bool.or_eq_false_iff] at hstatic
        intro offset
        obtain ⟨hheads, htails⟩ := ih hstatic.2 offset
        rw [Value.parts, hstatic.1]
        simp [Part.heads, Part.tails, hheads, htails]
  rw [Part.join, (hparts _).1, (hparts 0).2, List.append_nil]

/-- The encoding of a value that was read from canonical words is those words, cleared. -/
def EncodesWhatItReads (ty : Ty) : Prop :=
  ∀ frame position value leaves, ty.isDynamic = false →
    trace ty frame position = .ok (value, leaves) →
      (∀ leaf ∈ leaves, isCanonical leaf.type leaf.word = true) →
        value.encode = cleared ty.wordTypes (frame.data.drop position)

theorem flatMap_encode_of_traceItems
    {types : List Ty}
    (hencodes : ∀ ty ∈ types, ty.EncodesWhatItReads)
    {frame : Frame} {position : Nat} {values : List Value} {leaves : List Leaf}
    (hstatic : anyDynamic types = false)
    (htrace : traceItems types frame position = .ok (values, leaves))
    (hcanonical : ∀ leaf ∈ leaves, isCanonical leaf.type leaf.word = true) :
    values.flatMap Value.encode = cleared (wordTypesOf types) (frame.data.drop position) := by
  induction types generalizing position values leaves with
  | nil =>
      obtain ⟨rfl, -⟩ := traceItems_nil_eq_ok_iff.mp htrace
      rfl
  | cons ty rest ih =>
      obtain ⟨first, firstLeaves, others, otherLeaves, hfirst, hothers, rfl, rfl⟩ :=
        traceItems_cons_eq_ok_iff.mp htrace
      rw [List.forall_mem_cons] at hencodes
      rw [List.forall_mem_append] at hcanonical
      simp only [anyDynamic, Bool.or_eq_false_iff] at hstatic
      have hencode := hencodes.1 frame position first firstLeaves hstatic.1 hfirst hcanonical.1
      have hrest := ih hencodes.2 hstatic.2 hothers hcanonical.2
      rw [List.flatMap_cons, hencode, hrest, wordTypesOf, cleared_append, List.drop_drop,
        headSize_of_static hstatic.1]

theorem join_parts_of_traceItems
    {types : List Ty}
    (hencodes : ∀ ty ∈ types, ty.EncodesWhatItReads)
    {data : Bytes} {depth : Nat} {values : List Value} {leaves : List Leaf}
    (hstatic : anyDynamic types = false)
    (htrace : traceItems types ⟨data, depth⟩ 0 = .ok (values, leaves))
    (hcanonical : ∀ leaf ∈ leaves, isCanonical leaf.type leaf.word = true) :
    Part.join (Value.parts values) = cleared (wordTypesOf types) data := by
  have htyped := (traceItems_readsValues (fun ty _ => readsItsValues ty) htrace).2 hcanonical
  have hsame := anyDynamic_eq_of_haveValues (fun ty _ => isDynamic_eq_of_hasValue ty) htyped
  rw [join_parts_of_static (hsame.trans hstatic)]
  exact flatMap_encode_of_traceItems hencodes hstatic htrace hcanonical

theorem encodesWhatItReads
    (ty : Ty) :
    ty.EncodesWhatItReads := by
  induction ty using layoutInduction with
  | word ty hword =>
      intro frame position value leaves _ htrace hcanonical
      obtain ⟨word, hread, rfl, rfl⟩ := (trace_word_eq_ok_iff hword).mp htrace
      rw [List.forall_mem_singleton] at hcanonical
      rw [encode_wordValue hword hcanonical, wordTypes_of_isWord hword,
        cleared_word (Frame.word_eq_ok_iff.mp hread)]
  | bytes =>
      intro frame position value leaves hstatic
      cases hstatic
  | string =>
      intro frame position value leaves hstatic
      cases hstatic
  | array item ih =>
      intro frame position value leaves hstatic
      cases hstatic
  | fixedArray item count ih =>
      intro frame position value leaves hstatic htrace hcanonical
      rw [isDynamic] at hstatic
      obtain ⟨inner, values, hinner, hread, rfl⟩ :=
        (trace_fixedArray_of_static hstatic).mp htrace
      obtain ⟨-, -, rfl⟩ := Frame.openAt_eq_ok_iff.mp hinner
      have hnone := (anyDynamic_replicate item count.pos).trans hstatic
      rw [Value.encode, wordTypes, ← wordTypesOf_replicate]
      exact join_parts_of_traceItems (fun ty hmember => List.eq_of_mem_replicate hmember ▸ ih)
        hnone hread hcanonical
  | tuple items ih =>
      intro frame position value leaves hstatic htrace hcanonical
      obtain ⟨inner, values, hinner, hread, rfl⟩ := (trace_tuple_of_static hstatic).mp htrace
      obtain ⟨-, -, rfl⟩ := Frame.openAt_eq_ok_iff.mp hinner
      rw [Value.encode, wordTypes]
      exact join_parts_of_traceItems ih hstatic hread hcanonical

/-! ## Bytes that are read alike -/

/-- Bytes that are the same once they are cleared are read to the same value, and if the
words of the one are canonical then so are those of the other. -/
def ReadsClearedBytes (ty : Ty) : Prop :=
  ∀ data other depth position value leaves, ty.isDynamic = false →
    data.length = other.length →
      cleared ty.wordTypes (data.drop position) = cleared ty.wordTypes (other.drop position) →
        trace ty ⟨data, depth⟩ position = .ok (value, leaves) →
          (∀ leaf ∈ leaves, isCanonical leaf.type leaf.word = true) →
            ∃ others, trace ty ⟨other, depth⟩ position = .ok (value, others) ∧
              ∀ leaf ∈ others, isCanonical leaf.type leaf.word = true

theorem traceItems_readsClearedBytes
    {types : List Ty}
    (hreads : ∀ ty ∈ types, ty.ReadsClearedBytes)
    {data other : Bytes} {depth position : Nat} {values : List Value} {leaves : List Leaf}
    (hstatic : anyDynamic types = false)
    (hlength : data.length = other.length)
    (hsame : cleared (wordTypesOf types) (data.drop position) =
      cleared (wordTypesOf types) (other.drop position))
    (htrace : traceItems types ⟨data, depth⟩ position = .ok (values, leaves))
    (hcanonical : ∀ leaf ∈ leaves, isCanonical leaf.type leaf.word = true) :
    ∃ others, traceItems types ⟨other, depth⟩ position = .ok (values, others) ∧
      ∀ leaf ∈ others, isCanonical leaf.type leaf.word = true := by
  induction types generalizing position values leaves with
  | nil =>
      obtain ⟨rfl, -⟩ := traceItems_nil_eq_ok_iff.mp htrace
      exact ⟨[], rfl, by simp⟩
  | cons ty rest ih =>
      obtain ⟨first, firstLeaves, later, laterLeaves, hfirst, hlater, rfl, rfl⟩ :=
        traceItems_cons_eq_ok_iff.mp htrace
      rw [List.forall_mem_cons] at hreads
      rw [List.forall_mem_append] at hcanonical
      simp only [anyDynamic, Bool.or_eq_false_iff] at hstatic
      have hdropped : (data.drop position).length = (other.drop position).length := by
        rw [List.length_drop, List.length_drop, hlength]
      rw [wordTypesOf, cleared_append_eq_iff _ _ hdropped, List.drop_drop, List.drop_drop,
        ← headSize_of_static hstatic.1] at hsame
      obtain ⟨firstOthers, hfirstOther, hfirstCanonical⟩ :=
        hreads.1 data other depth position first firstLeaves hstatic.1 hlength hsame.1 hfirst
          hcanonical.1
      obtain ⟨laterOthers, hlaterOther, hlaterCanonical⟩ :=
        ih hreads.2 hstatic.2 hsame.2 hlater hcanonical.2
      refine ⟨firstOthers ++ laterOthers, ?_, ?_⟩
      · exact traceItems_cons_eq_ok_iff.mpr
          ⟨first, firstOthers, later, laterOthers, hfirstOther, hlaterOther, rfl, rfl⟩
      · rw [List.forall_mem_append]
        exact ⟨hfirstCanonical, hlaterCanonical⟩

/-- The same for types that are read in a frame of their own. -/
theorem exists_frame_of_cleared_eq
    {types : List Ty}
    (hreads : ∀ ty ∈ types, ty.ReadsClearedBytes)
    {data other : Bytes} {depth position : Nat} {inner : Frame} {values : List Value}
    {leaves : List Leaf}
    (hstatic : anyDynamic types = false)
    (hlength : data.length = other.length)
    (hsame : cleared (wordTypesOf types) (data.drop position) =
      cleared (wordTypesOf types) (other.drop position))
    (hopen : Frame.openAt ⟨data, depth⟩ position = .ok inner)
    (htrace : traceItems types inner 0 = .ok (values, leaves))
    (hcanonical : ∀ leaf ∈ leaves, isCanonical leaf.type leaf.word = true) :
    ∃ opened others, Frame.openAt ⟨other, depth⟩ position = .ok opened ∧
      traceItems types opened 0 = .ok (values, others) ∧
      ∀ leaf ∈ others, isCanonical leaf.type leaf.word = true := by
  obtain ⟨hdepth, hle, rfl⟩ := Frame.openAt_eq_ok_iff.mp hopen
  have hopened : Frame.openAt ⟨other, depth⟩ position = .ok ⟨other.drop position, depth + 1⟩ :=
    Frame.openAt_eq_ok_iff.mpr ⟨hdepth, hlength ▸ hle, rfl⟩
  have hdropped : (data.drop position).length = (other.drop position).length := by
    rw [List.length_drop, List.length_drop, hlength]
  rw [← List.drop_zero (l := data.drop position), ← List.drop_zero (l := other.drop position)]
    at hsame
  obtain ⟨others, hread, hclean⟩ :=
    traceItems_readsClearedBytes hreads hstatic hdropped hsame htrace hcanonical
  exact ⟨_, others, hopened, hread, hclean⟩

theorem readsClearedBytes_of_isWord
    {ty : Ty}
    (hword : ty.isWord = true) :
    ty.ReadsClearedBytes := by
  intro data other depth position value leaves _ hlength hsame htrace hcanonical
  obtain ⟨word, hread, rfl, rfl⟩ := (trace_word_eq_ok_iff hword).mp htrace
  rw [List.forall_mem_singleton] at hcanonical
  have hbytes : word.toList = (data.drop position).take 32 := Frame.word_eq_ok_iff.mp hread
  have henough : ((other.drop position).take 32).length = 32 := by
    have hwhole := congrArg List.length hbytes
    rw [word.length_toList, List.length_take, List.length_drop] at hwhole
    rw [List.length_take, List.length_drop]
    omega
  obtain ⟨found, hfound⟩ : ∃ found : Word, found.toList = (other.drop position).take 32 :=
    ⟨⟨_, henough⟩, rfl⟩
  have hreadOther : Frame.word ⟨other, depth⟩ position = .ok found :=
    Frame.word_eq_ok_iff.mpr hfound
  rw [wordTypes_of_isWord hword, cleared_word hbytes, cleared_word hfound] at hsame
  obtain ⟨hvalue, hverdict⟩ := wordValue_congr hsame
  refine ⟨[⟨ty, found⟩], (trace_word_eq_ok_iff hword).mpr ⟨found, hreadOther, hvalue, rfl⟩, ?_⟩
  rw [List.forall_mem_singleton, ← hverdict]
  exact hcanonical

theorem readsClearedBytes
    (ty : Ty) :
    ty.ReadsClearedBytes := by
  induction ty using layoutInduction with
  | word ty hword => exact readsClearedBytes_of_isWord hword
  | bytes =>
      intro data other depth position value leaves hstatic
      cases hstatic
  | string =>
      intro data other depth position value leaves hstatic
      cases hstatic
  | array item ih =>
      intro data other depth position value leaves hstatic
      cases hstatic
  | fixedArray item count ih =>
      intro data other depth position value leaves hstatic hlength hsame htrace hcanonical
      rw [isDynamic] at hstatic
      obtain ⟨inner, values, hinner, hread, rfl⟩ :=
        (trace_fixedArray_of_static hstatic).mp htrace
      have hnone := (anyDynamic_replicate item count.pos).trans hstatic
      rw [wordTypes, ← wordTypesOf_replicate] at hsame
      obtain ⟨opened, others, hopened, hreadOther, hclean⟩ := exists_frame_of_cleared_eq
        (fun ty hmember => List.eq_of_mem_replicate hmember ▸ ih) hnone hlength hsame hinner
        hread hcanonical
      exact ⟨others,
        (trace_fixedArray_of_static hstatic).mpr ⟨opened, values, hopened, hreadOther, rfl⟩,
        hclean⟩
  | tuple items ih =>
      intro data other depth position value leaves hstatic hlength hsame htrace hcanonical
      obtain ⟨inner, values, hinner, hread, rfl⟩ := (trace_tuple_of_static hstatic).mp htrace
      obtain ⟨opened, others, hopened, hreadOther, hclean⟩ :=
        exists_frame_of_cleared_eq ih hstatic hlength hsame hinner hread hcanonical
      exact ⟨others,
        (trace_tuple_of_static hstatic).mpr ⟨opened, values, hopened, hreadOther, rfl⟩, hclean⟩

end Ty
end Abi
end MintWatch
