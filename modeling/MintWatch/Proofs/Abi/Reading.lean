import Mathlib
import MintWatch.Proofs.Abi.Typing
import MintWatch.Proofs.Fallible
/-!
# Readings with the words they take

The layout reader gives values and forgets where they came from.  The reading below is
the same reader, keeping every word that it takes for a value together with the type of
that value, in the order of reading; forgetting the words gives the layout reader back.
Each type former has one equivalence that says all a successful reading of it did, and
arrays are readings of a repeated parameter list.
-/

namespace MintWatch
namespace Abi

/-! ## Frames -/

namespace Frame

variable {frame inner : Frame} {position offset : Nat}

theorem word_eq_ok_iff
    {word : Word} :
    frame.word position = .ok word ↔ word.toList = (frame.data.drop position).take 32 := by
  rw [← Octets.ofList?_eq_some]
  unfold Frame.word
  cases Octets.ofList? 32 ((frame.data.drop position).take 32) <;> simp

theorem number_eq_ok_iff
    {number : Nat} :
    frame.number position = .ok number ↔
      ∃ word, frame.word position = .ok word ∧ word.toNat = number ∧ number < UInt64.size := by
  unfold Frame.number
  cases frame.word position with
  | error fault => simp
  | ok word =>
      simp only [Except.ok.injEq, exists_eq_left']
      split
      · rename_i hlt
        simp only [Except.ok.injEq]
        constructor
        · rintro rfl
          exact ⟨rfl, hlt⟩
        · exact fun h => h.1
      · rename_i hwide
        simp only [reduceCtorEq, false_iff]
        rintro ⟨rfl, hlt⟩
        exact hwide hlt

theorem openAt_eq_ok_iff :
    frame.openAt offset = .ok inner ↔
      frame.depth < depthLimit ∧ offset ≤ frame.data.length ∧
        inner = ⟨frame.data.drop offset, frame.depth + 1⟩ := by
  unfold Frame.openAt
  split
  · rename_i hdeep
    simp only [reduceCtorEq, false_iff]
    rintro ⟨hlt, -⟩
    omega
  · rename_i hshallow
    split
    · rename_i hshort
      simp only [reduceCtorEq, false_iff]
      rintro ⟨-, hle, -⟩
      omega
    · rename_i hlong
      simp only [Except.ok.injEq]
      constructor
      · rintro rfl
        exact ⟨by omega, by omega, rfl⟩
      · exact fun h => h.2.2.symm

theorem follow_eq_ok_iff :
    frame.follow position = .ok inner ↔
      ∃ offset, frame.number position = .ok offset ∧ frame.openAt offset = .ok inner := by
  unfold Frame.follow
  cases frame.number position <;> simp

theorem contents_eq_ok_iff
    {bytes : Bytes} :
    frame.contents = .ok bytes ↔
      ∃ length, frame.number 0 = .ok length ∧ length ≤ (frame.data.drop 32).length ∧
        bytes = (frame.data.drop 32).take length := by
  unfold Frame.contents
  cases frame.number 0 with
  | error fault => simp
  | ok length =>
      simp only [Except.ok.injEq, exists_eq_left']
      split
      · rename_i hshort
        simp only [reduceCtorEq, false_iff]
        rintro ⟨hle, -⟩
        omega
      · rename_i hlong
        simp only [Except.ok.injEq]
        constructor
        · rintro rfl
          exact ⟨by omega, rfl⟩
        · exact fun h => h.2.symm

end Frame

/-! ## The reader that keeps its words -/

/-- A word that was taken for a value of a type. -/
structure Leaf where
  type : Ty
  word : Word

/-- Traces `count` values whose heads follow each other at a fixed distance. -/
def traceEach (trace : Nat → Except LayoutFault (Value × List Leaf)) (stride : Nat) :
    Nat → Nat → Except LayoutFault (List Value × List Leaf)
  | 0, _ => .ok ([], [])
  | count + 1, position =>
    (trace position).bind fun first =>
      (traceEach trace stride count (position + stride)).map fun rest =>
        (first.1 :: rest.1, first.2 ++ rest.2)

namespace Ty

mutual

/-- Reads a value and keeps the words it is made of. -/
def trace : Ty → Frame → Nat → Except LayoutFault (Value × List Leaf)
  | .bytes, frame, position =>
    (frame.follow position).bind fun inner =>
      inner.contents.map fun bytes => (.bytes bytes, [])
  | .string, frame, position =>
    (frame.follow position).bind fun inner =>
      inner.contents.map fun bytes => (.string (Utf8.decodeLossy bytes), [])
  | .array item, frame, position =>
    (frame.follow position).bind fun inner =>
      (inner.number 0).bind fun length =>
        if length = 0 ∨ leastWords item = 0 then .ok (.array [], [])
        else
          (inner.openAt 32).bind fun items =>
            if items.wordCount < length * leastWords item then .error .overrun
            else
              (traceEach (trace item items) (headSize item) length 0).map fun read =>
                (.array read.1, read.2)
  | .fixedArray item count, frame, position =>
    (if isDynamic item then frame.follow position else frame.openAt position).bind fun inner =>
      (traceEach (trace item inner) (headSize item) count.val 0).map fun read =>
        (.fixedArray read.1, read.2)
  | .tuple items, frame, position =>
    (if anyDynamic items then frame.follow position else frame.openAt position).bind fun inner =>
      (traceItems items inner 0).map fun read => (.tuple read.1, read.2)
  | ty, frame, position =>
    (frame.word position).map fun word => (wordValue ty word, [⟨ty, word⟩])

/-- Reads values whose heads follow each other, and keeps the words they are made of. -/
def traceItems : List Ty → Frame → Nat → Except LayoutFault (List Value × List Leaf)
  | [], _, _ => .ok ([], [])
  | ty :: rest, frame, position =>
    (trace ty frame position).bind fun first =>
      (traceItems rest frame (position + headSize ty)).map fun others =>
        (first.1 :: others.1, first.2 ++ others.2)

end

theorem traceEach_eq_traceItems
    (ty : Ty) (frame : Frame) (count position : Nat) :
    traceEach (trace ty frame) ty.headSize count position =
      traceItems (List.replicate count ty) frame position := by
  induction count generalizing position with
  | zero => rfl
  | succ count ih => simp only [traceEach, List.replicate_succ, traceItems, ih]

/-- Traces a parameter list, as `readParams` reads it. -/
def traceParams (types : List Ty) (data : Bytes) :
    Except LayoutFault (List Value × List Leaf) :=
  if allEmpty types then .ok ([], [])
  else if data.length / 32 < leastWordsOf types then .error .overrun
  else traceItems types ⟨data, 0⟩ 0

/-! ## What a reading did -/

section Readings

variable {frame : Frame} {position : Nat} {value : Value} {leaves : List Leaf}

theorem trace_word_eq_ok_iff
    {ty : Ty}
    (hword : ty.isWord = true) :
    trace ty frame position = .ok (value, leaves) ↔
      ∃ word, frame.word position = .ok word ∧ value = ty.wordValue word ∧
        leaves = [⟨ty, word⟩] := by
  have htrace :
      trace ty frame position =
        (frame.word position).map fun word => (wordValue ty word, [⟨ty, word⟩]) := by
    cases ty <;> first
      | rfl
      | simp [isWord] at hword
  rw [htrace, map_eq_ok_iff]
  simp only [Prod.mk.injEq, @eq_comm _ _ value, @eq_comm _ _ leaves]

theorem trace_bytes_eq_ok_iff :
    trace .bytes frame position = .ok (value, leaves) ↔
      ∃ inner bytes, frame.follow position = .ok inner ∧ inner.contents = .ok bytes ∧
        value = .bytes bytes ∧ leaves = [] := by
  simp only [trace, bind_eq_ok_iff, map_eq_ok_iff, Prod.mk.injEq, @eq_comm _ _ value,
    @eq_comm _ _ leaves, exists_and_left]

theorem trace_string_eq_ok_iff :
    trace .string frame position = .ok (value, leaves) ↔
      ∃ inner bytes, frame.follow position = .ok inner ∧ inner.contents = .ok bytes ∧
        value = .string (Utf8.decodeLossy bytes) ∧ leaves = [] := by
  simp only [trace, bind_eq_ok_iff, map_eq_ok_iff, Prod.mk.injEq, @eq_comm _ _ value,
    @eq_comm _ _ leaves, exists_and_left]

theorem trace_array_eq_ok_iff
    {item : Ty} :
    trace (.array item) frame position = .ok (value, leaves) ↔
      ∃ inner length, frame.follow position = .ok inner ∧ inner.number 0 = .ok length ∧
        ((length = 0 ∨ item.leastWords = 0) ∧ value = .array [] ∧ leaves = [] ∨
          ¬ (length = 0 ∨ item.leastWords = 0) ∧
            ∃ items values, inner.openAt 32 = .ok items ∧
              length * item.leastWords ≤ items.wordCount ∧
              traceItems (List.replicate length item) items 0 = .ok (values, leaves) ∧
              value = .array values) := by
  simp only [trace, bind_eq_ok_iff, traceEach_eq_traceItems]
  constructor
  · rintro ⟨inner, hinner, length, hlength, hread⟩
    refine ⟨inner, length, hinner, hlength, ?_⟩
    split at hread
    · rename_i hnothing
      simp only [Except.ok.injEq, Prod.mk.injEq] at hread
      exact Or.inl ⟨hnothing, hread.1.symm, hread.2.symm⟩
    · rename_i hsome
      obtain ⟨items, hitems, hread⟩ := bind_eq_ok_iff.mp hread
      split at hread
      · simp at hread
      · rename_i henough
        obtain ⟨⟨values, found⟩, hfound, hpair⟩ := map_eq_ok_iff.mp hread
        simp only [Prod.mk.injEq] at hpair
        obtain ⟨rfl, rfl⟩ := hpair
        exact Or.inr ⟨hsome, items, values, hitems, by omega, hfound, rfl⟩
  · rintro ⟨inner, length, hinner, hlength, hread⟩
    refine ⟨inner, hinner, length, hlength, ?_⟩
    rcases hread with ⟨hnothing, rfl, rfl⟩ | ⟨hsome, items, values, hitems, henough, hread, rfl⟩
    · rw [if_pos hnothing]
    · rw [if_neg hsome, hitems]
      simp only [Except.bind]
      rw [if_neg (by omega), hread]
      rfl

theorem trace_fixedArray_eq_ok_iff
    {item : Ty} {count : Count} :
    trace (.fixedArray item count) frame position = .ok (value, leaves) ↔
      ∃ inner values,
        (if item.isDynamic then frame.follow position else frame.openAt position) = .ok inner ∧
          traceItems (List.replicate count.val item) inner 0 = .ok (values, leaves) ∧
          value = .fixedArray values := by
  simp only [trace, bind_eq_ok_iff, map_eq_ok_iff, traceEach_eq_traceItems, Prod.exists,
    Prod.mk.injEq]
  constructor
  · rintro ⟨inner, hinner, values, found, hfound, rfl, rfl⟩
    exact ⟨inner, values, hinner, hfound, rfl⟩
  · rintro ⟨inner, values, hinner, hread, rfl⟩
    exact ⟨inner, hinner, values, leaves, hread, rfl, rfl⟩

theorem trace_tuple_eq_ok_iff
    {types : List Ty} :
    trace (.tuple types) frame position = .ok (value, leaves) ↔
      ∃ inner values,
        (if anyDynamic types then frame.follow position else frame.openAt position) =
            .ok inner ∧
          traceItems types inner 0 = .ok (values, leaves) ∧ value = .tuple values := by
  simp only [trace, bind_eq_ok_iff, map_eq_ok_iff, Prod.exists, Prod.mk.injEq]
  constructor
  · rintro ⟨inner, hinner, values, found, hfound, rfl, rfl⟩
    exact ⟨inner, values, hinner, hfound, rfl⟩
  · rintro ⟨inner, values, hinner, hread, rfl⟩
    exact ⟨inner, hinner, values, leaves, hread, rfl, rfl⟩

theorem traceItems_nil_eq_ok_iff
    {values : List Value} :
    traceItems [] frame position = .ok (values, leaves) ↔ values = [] ∧ leaves = [] := by
  simp only [traceItems, Except.ok.injEq, Prod.mk.injEq, @eq_comm _ _ values,
    @eq_comm _ _ leaves]

theorem traceItems_cons_eq_ok_iff
    {ty : Ty} {rest : List Ty} {values : List Value} :
    traceItems (ty :: rest) frame position = .ok (values, leaves) ↔
      ∃ first firstLeaves others otherLeaves,
        trace ty frame position = .ok (first, firstLeaves) ∧
          traceItems rest frame (position + ty.headSize) = .ok (others, otherLeaves) ∧
          values = first :: others ∧ leaves = firstLeaves ++ otherLeaves := by
  simp only [traceItems, bind_eq_ok_iff, map_eq_ok_iff, Prod.exists, Prod.mk.injEq]
  constructor
  · rintro ⟨first, firstLeaves, hfirst, others, otherLeaves, hothers, rfl, rfl⟩
    exact ⟨first, firstLeaves, others, otherLeaves, hfirst, hothers, rfl, rfl⟩
  · rintro ⟨first, firstLeaves, others, otherLeaves, hfirst, hothers, rfl, rfl⟩
    exact ⟨first, firstLeaves, hfirst, others, otherLeaves, hothers, rfl, rfl⟩

end Readings

/-! ## Forgetting the words -/

theorem map_bind_fst
    {ε α β γ : Type} (result : Except ε α) (next : α → Except ε (β × γ)) :
    (result.bind next).map Prod.fst = result.bind fun value => (next value).map Prod.fst := by
  cases result <;> rfl

theorem readEach_eq_traceEach
    {read : Nat → Except LayoutFault Value} {trace : Nat → Except LayoutFault (Value × List Leaf)}
    (hread : ∀ position, read position = (trace position).map Prod.fst)
    (stride count position : Nat) :
    readEach read stride count position =
      (traceEach trace stride count position).map Prod.fst := by
  induction count generalizing position with
  | zero => rfl
  | succ count ih =>
      simp only [readEach, traceEach, hread, ih]
      cases trace position with
      | error fault => rfl
      | ok first =>
          cases traceEach trace stride count (position + stride) <;> rfl

theorem readItems_eq_traceItems
    {types : List Ty}
    (hread : ∀ ty ∈ types, ∀ frame position,
      read ty frame position = (trace ty frame position).map Prod.fst)
    (frame : Frame) (position : Nat) :
    readItems types frame position = (traceItems types frame position).map Prod.fst := by
  induction types generalizing position with
  | nil => rfl
  | cons ty rest ih =>
      rw [List.forall_mem_cons] at hread
      simp only [readItems, traceItems, hread.1, ih hread.2]
      cases trace ty frame position with
      | error fault => rfl
      | ok first =>
          cases traceItems rest frame (position + headSize ty) <;> rfl

theorem read_eq_trace
    (ty : Ty) (frame : Frame) (position : Nat) :
    read ty frame position = (trace ty frame position).map Prod.fst := by
  induction ty using layoutInduction generalizing frame position with
  | word ty hword =>
      cases ty <;> first
        | (simp only [read, trace]; cases frame.word position <;> rfl)
        | simp [isWord] at hword
  | bytes =>
      simp only [read, trace, map_bind_fst]
      cases frame.follow position with
      | error fault => rfl
      | ok inner => cases hcontents : inner.contents <;> simp [Except.bind, Except.map, hcontents]
  | string =>
      simp only [read, trace, map_bind_fst]
      cases frame.follow position with
      | error fault => rfl
      | ok inner => cases hcontents : inner.contents <;> simp [Except.bind, Except.map, hcontents]
  | array item ih =>
      simp only [read, trace, map_bind_fst]
      congr 1
      funext inner
      congr 1
      funext length
      by_cases hlength : length = 0
      · simp [hlength, Except.map]
      by_cases hwords : leastWords item = 0
      · simp [hlength, hwords, Except.map]
      simp only [hlength, hwords, or_self, if_false, map_bind_fst]
      congr 1
      funext items
      rw [readEach_eq_traceEach (ih items)]
      split
      · rfl
      · cases traceEach (trace item items) (headSize item) length 0 <;> rfl
  | fixedArray item count ih =>
      simp only [read, trace, map_bind_fst]
      congr 1
      funext inner
      rw [readEach_eq_traceEach (ih inner)]
      cases traceEach (trace item inner) (headSize item) count.val 0 <;> rfl
  | tuple items ih =>
      simp only [read, trace, map_bind_fst]
      congr 1
      funext inner
      rw [readItems_eq_traceItems ih]
      cases traceItems items inner 0 <;> rfl

theorem readParams_eq_traceParams
    (types : List Ty) (data : Bytes) :
    readParams types data = (traceParams types data).map Prod.fst := by
  unfold readParams traceParams
  split
  · rfl
  split
  · rfl
  · exact readItems_eq_traceItems (fun ty _ => read_eq_trace ty) _ _

end Ty
end Abi
end MintWatch
