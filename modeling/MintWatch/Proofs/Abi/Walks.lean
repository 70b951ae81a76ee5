import Mathlib
import MintWatch.Proofs.Abi.Reading
import MintWatch.Proofs.Abi.Words
import MintWatch.Proofs.Call.Arguments
/-!
# The check of words and the reader of the layout

The check finds the words of a parameter list on its own: it computes the places of
heads and tails again, and it does not open the frames that the reader opens for static
components.  Still it looks at the words that the reader took, in the same order, and at
no others: its verdict on bytes that could be read is decided by the words of the
reading alone.  The induction goes over the type and carries a base, because the reader
restarts its positions inside static components where the check goes on counting.
-/

namespace MintWatch
namespace Abi

/-! ## Places -/

theorem wordAt_eq_ok_iff
    {data : Bytes} {position : Nat} {word : Word} :
    wordAt data position = .ok word ↔ word.toList = (data.drop position).take 32 := by
  rw [← Octets.ofList?_eq_some]
  unfold wordAt
  cases Octets.ofList? 32 ((data.drop position).take 32) <;> simp

theorem offsetAt_of_number
    {frame : Frame} {position number : Nat}
    (hnumber : frame.number position = .ok number) :
    offsetAt frame.data position = .ok number := by
  obtain ⟨word, hword, rfl, hlt⟩ := Frame.number_eq_ok_iff.mp hnumber
  have hlength : word.toList.length = 24 + 8 := word.length_toList
  have hsmall : bigEndian word.toList < 256 ^ 8 := hlt
  have hzeros := (zeros_front_iff hlength).mpr hsmall
  unfold offsetAt
  rw [wordAt_eq_ok_iff.mpr (Frame.word_eq_ok_iff.mp hword)]
  simp only [hzeros, if_true]
  rw [bigEndian_drop_of_lt hlength hsmall]
  rfl

theorem tailAt_of_follow
    {frame inner : Frame} {position : Nat}
    (hfollow : frame.follow position = .ok inner) :
    tailAt frame.data position = .ok inner.data := by
  obtain ⟨offset, hnumber, hopen⟩ := Frame.follow_eq_ok_iff.mp hfollow
  obtain ⟨-, hle, rfl⟩ := Frame.openAt_eq_ok_iff.mp hopen
  unfold tailAt
  rw [offsetAt_of_number hnumber]
  simp only
  rw [if_neg (by omega)]

/-! ## Verdicts on words -/

/-- A leaf whose word is not looked at, or is the encoding of some value of its type. -/
def Leaf.IsClean (leaf : Leaf) : Prop :=
  leaf.type = .function ∨ ∃ value, leaf.type.HasValue value ∧ value.encode = leaf.word.toList

/-- The result of a check that looks at the words of leaves in order and stops at the
first that is not canonical. -/
def Judged (leaves : List Leaf) (result : Except WordFault Unit) : Prop :=
  match leaves.find? fun leaf => !isCanonical leaf.type leaf.word with
  | none => result = .ok ()
  | some leaf => ∃ position, result = .error (.invalid position leaf.type.name)

theorem judged_nil : Judged [] (.ok ()) := rfl

theorem Judged.append
    {first second : List Leaf} {before after : Except WordFault Unit}
    (hfirst : Judged first before)
    (hsecond : Judged second after) :
    Judged (first ++ second) (before.bind fun _ => after) := by
  unfold Judged at *
  rw [List.find?_append]
  cases hfound : first.find? fun leaf => !isCanonical leaf.type leaf.word with
  | none =>
      rw [hfound] at hfirst
      simp only at hfirst
      subst hfirst
      rw [Option.none_or]
      exact hsecond
  | some leaf =>
      rw [hfound] at hfirst
      obtain ⟨position, rfl⟩ := hfirst
      exact ⟨position, rfl⟩

theorem judged_word
    {ty : Ty} {data : Bytes} {position : Nat} {word : Word}
    (hword : wordAt data position = .ok word) :
    Judged [⟨ty, word⟩] (ty.checkWord data position) := by
  unfold Judged Ty.checkWord
  rw [hword]
  cases hcanonical : isCanonical ty word <;> simp [hcanonical]

namespace Ty

theorem checkItems_cons
    (ty : Ty) (rest : List Ty) (data : Bytes) (position : Nat) :
    checkItems (ty :: rest) data position =
      (check ty data position).bind fun _ => checkItems rest data (position + ty.headSize) := by
  rw [checkItems]
  cases check ty data position <;> rfl

theorem checkEach_eq_checkItems
    (ty : Ty) (data : Bytes) (count position : Nat) :
    checkEach (check ty data) ty.headSize count position =
      checkItems (List.replicate count ty) data position := by
  induction count generalizing position with
  | zero => rfl
  | succ count ih =>
      rw [List.replicate_succ, checkItems_cons, ← ih, checkEach]
      cases check ty data position <;> rfl

theorem checkItems_eq_ok
    {types : List Ty}
    (hchecks : ∀ ty ∈ types, ∀ data position, check ty data position = .ok ())
    (data : Bytes) (position : Nat) :
    checkItems types data position = .ok () := by
  induction types generalizing position with
  | nil => rfl
  | cons ty rest ih =>
      rw [List.forall_mem_cons] at hchecks
      simp only [checkItems, hchecks.1, ih hchecks.2]

theorem leastWords_of_mem
    {types : List Ty} {ty : Ty}
    (hnothing : leastWordsOf types = 0)
    (hmember : ty ∈ types) :
    ty.leastWords = 0 := by
  induction types with
  | nil => simp at hmember
  | cons first rest ih =>
      simp only [leastWordsOf, Nat.add_eq_zero_iff] at hnothing
      rcases List.mem_cons.mp hmember with hsame | hlater
      · exact hsame ▸ hnothing.1
      · exact ih hnothing.2 hlater

theorem isDynamic_of_leastWords_eq_zero
    (ty : Ty)
    (hnothing : ty.leastWords = 0) :
    ty.isDynamic = false := by
  induction ty using layoutInduction with
  | word ty hword => cases ty <;> simp_all [isWord, leastWords]
  | bytes => simp [leastWords] at hnothing
  | string => simp [leastWords] at hnothing
  | array item ih => simp [leastWords] at hnothing
  | fixedArray item count ih =>
      have hpos := count.pos
      simp only [leastWords, Nat.mul_eq_zero] at hnothing
      exact ih (by omega)
  | tuple items ih =>
      simp only [leastWords] at hnothing
      simp only [isDynamic]
      induction items with
      | nil => rfl
      | cons ty rest ihRest =>
          rw [List.forall_mem_cons] at ih
          simp only [leastWordsOf, Nat.add_eq_zero_iff] at hnothing
          rw [anyDynamic, ih.1 hnothing.1, ihRest ih.2 hnothing.2, Bool.or_self]

/-- Values that take no words are accepted whatever the bytes are. -/
theorem check_of_leastWords_eq_zero
    (ty : Ty)
    (hnothing : ty.leastWords = 0)
    (data : Bytes) (position : Nat) :
    check ty data position = .ok () := by
  induction ty using layoutInduction generalizing data position with
  | word ty hword => cases ty <;> simp_all [isWord, leastWords]
  | bytes => simp [leastWords] at hnothing
  | string => simp [leastWords] at hnothing
  | array item ih => simp [leastWords] at hnothing
  | fixedArray item count ih =>
      have hstatic := isDynamic_of_leastWords_eq_zero _ hnothing
      have hpos := count.pos
      simp only [leastWords, Nat.mul_eq_zero] at hnothing
      simp only [isDynamic] at hstatic
      rw [check, hstatic, if_neg (by simp), checkEach_eq_checkItems]
      apply checkItems_eq_ok
      intro ty hmember
      rw [List.eq_of_mem_replicate hmember]
      exact ih (by omega)
  | tuple items ih =>
      have hstatic := isDynamic_of_leastWords_eq_zero _ hnothing
      simp only [leastWords] at hnothing
      simp only [isDynamic] at hstatic
      rw [check, hstatic, if_neg (by simp)]
      apply checkItems_eq_ok
      intro ty hmember
      exact ih ty hmember (leastWords_of_mem hnothing hmember)

/-! ## The two walks -/

/-- The check of a type is decided by the words that a reading of the type took.  Static
types may be read in a frame that starts at a base the check does not know of. -/
def ChecksWhatItReads (ty : Ty) : Prop :=
  ∀ data depth base position value leaves,
    (ty.isDynamic = true → base = 0) →
      trace ty ⟨data.drop base, depth⟩ position = .ok (value, leaves) →
        Judged leaves (check ty data (base + position))

theorem checkItems_judged
    {types : List Ty}
    (hchecks : ∀ ty ∈ types, ty.ChecksWhatItReads)
    (data : Bytes) (base : Nat)
    {depth position : Nat} {values : List Value} {leaves : List Leaf}
    (hbase : anyDynamic types = true → base = 0)
    (htrace : traceItems types ⟨data.drop base, depth⟩ position = .ok (values, leaves)) :
    Judged leaves (checkItems types data (base + position)) := by
  induction types generalizing position values leaves with
  | nil =>
      obtain ⟨-, rfl⟩ := traceItems_nil_eq_ok_iff.mp htrace
      exact judged_nil
  | cons ty rest ih =>
      obtain ⟨first, firstLeaves, others, otherLeaves, hfirst, hothers, -, rfl⟩ :=
        traceItems_cons_eq_ok_iff.mp htrace
      rw [List.forall_mem_cons] at hchecks
      simp only [anyDynamic, Bool.or_eq_true] at hbase
      have hjudged := hchecks.1 data depth base position first firstLeaves
        (fun hdynamic => hbase (Or.inl hdynamic)) hfirst
      have hrest := ih hchecks.2 (fun hdynamic => hbase (Or.inr hdynamic)) hothers
      rw [← Nat.add_assoc] at hrest
      rw [checkItems_cons]
      exact hjudged.append hrest

theorem checksWhatItReads_of_isWord
    {ty : Ty}
    (hword : ty.isWord = true) :
    ty.ChecksWhatItReads := by
  intro data depth base position value leaves _ htrace
  obtain ⟨word, hread, -, rfl⟩ := (trace_word_eq_ok_iff hword).mp htrace
  have hplace : wordAt data (base + position) = .ok word := by
    rw [wordAt_eq_ok_iff, Frame.word_eq_ok_iff.mp hread, List.drop_drop]
  cases ty <;> first
    | exact judged_word hplace
    | (simp [isWord] at hword; done)
    | rfl

theorem checksWhatItReads
    (ty : Ty) :
    ty.ChecksWhatItReads := by
  induction ty using layoutInduction with
  | word ty hword => exact checksWhatItReads_of_isWord hword
  | bytes =>
      intro data depth base position value leaves hbase htrace
      obtain ⟨inner, bytes, hfollow, -, -, rfl⟩ := trace_bytes_eq_ok_iff.mp htrace
      have htail := tailAt_of_follow hfollow
      rw [hbase rfl, List.drop_zero] at htail
      rw [hbase rfl, Nat.zero_add, check, htail]
      exact judged_nil
  | string =>
      intro data depth base position value leaves hbase htrace
      obtain ⟨inner, bytes, hfollow, -, -, rfl⟩ := trace_string_eq_ok_iff.mp htrace
      have htail := tailAt_of_follow hfollow
      rw [hbase rfl, List.drop_zero] at htail
      rw [hbase rfl, Nat.zero_add, check, htail]
      exact judged_nil
  | array item ih =>
      intro data depth base position value leaves hbase htrace
      obtain ⟨inner, length, hfollow, hlength, hread⟩ := trace_array_eq_ok_iff.mp htrace
      have htail := tailAt_of_follow hfollow
      rw [hbase rfl, List.drop_zero] at htail
      rw [hbase rfl, Nat.zero_add, check, htail]
      simp only [Except.bind]
      rw [offsetAt_of_number hlength]
      simp only
      rw [checkEach_eq_checkItems]
      rcases hread with ⟨hnothing, -, rfl⟩ | ⟨-, items, values, hitems, -, hread, -⟩
      · -- Nothing was read, so nothing may be refused either.
        have hchecks : checkItems (List.replicate length item) (inner.data.drop 32) 0 = .ok () := by
          rcases hnothing with rfl | hnothing
          · rfl
          · apply checkItems_eq_ok
            intro ty hmember
            rw [List.eq_of_mem_replicate hmember]
            exact check_of_leastWords_eq_zero item hnothing
        rw [hchecks]
        exact judged_nil
      · obtain ⟨-, -, rfl⟩ := Frame.openAt_eq_ok_iff.mp hitems
        refine checkItems_judged ?_ (inner.data.drop 32) 0 (fun _ => rfl) hread
        intro ty hmember
        exact List.eq_of_mem_replicate hmember ▸ ih
  | fixedArray item count ih =>
      intro data depth base position value leaves hbase htrace
      obtain ⟨inner, values, hinner, hread, -⟩ := trace_fixedArray_eq_ok_iff.mp htrace
      have hchecks : ∀ ty ∈ List.replicate count.val item, ty.ChecksWhatItReads :=
        fun ty hmember => List.eq_of_mem_replicate hmember ▸ ih
      rw [check, checkEach_eq_checkItems]
      by_cases hdynamic : item.isDynamic = true
      · rw [if_pos hdynamic] at hinner ⊢
        have htail := tailAt_of_follow hinner
        rw [hbase hdynamic, List.drop_zero] at htail
        rw [hbase hdynamic, Nat.zero_add, htail]
        simp only [Except.bind]
        rw [checkEach_eq_checkItems]
        exact checkItems_judged hchecks inner.data 0 (fun _ => rfl) hread
      · rw [if_neg hdynamic] at hinner ⊢
        obtain ⟨-, -, rfl⟩ := Frame.openAt_eq_ok_iff.mp hinner
        simp only [List.drop_drop] at hread
        refine checkItems_judged hchecks data (base + position) ?_ hread
        intro hany
        rw [anyDynamic_replicate item count.pos] at hany
        exact absurd hany hdynamic
  | tuple items ih =>
      intro data depth base position value leaves hbase htrace
      obtain ⟨inner, values, hinner, hread, -⟩ := trace_tuple_eq_ok_iff.mp htrace
      rw [check]
      by_cases hdynamic : anyDynamic items = true
      · rw [if_pos hdynamic] at hinner ⊢
        have htail := tailAt_of_follow hinner
        rw [hbase hdynamic, List.drop_zero] at htail
        rw [hbase hdynamic, Nat.zero_add, htail]
        exact checkItems_judged ih inner.data 0 (fun _ => rfl) hread
      · rw [if_neg hdynamic] at hinner ⊢
        obtain ⟨-, -, rfl⟩ := Frame.openAt_eq_ok_iff.mp hinner
        simp only [List.drop_drop] at hread
        exact checkItems_judged ih (data.drop (base + position)) 0 (fun _ => rfl) hread

/-! ## What clean words say about the values -/

/-- The words of a reading are words of types of one word, and if all of them are
canonical then the value inhabits the type. -/
def ReadsItsValues (ty : Ty) : Prop :=
  ∀ frame position value leaves,
    trace ty frame position = .ok (value, leaves) →
      (∀ leaf ∈ leaves, leaf.type.isWord = true) ∧
        ((∀ leaf ∈ leaves, isCanonical leaf.type leaf.word = true) → ty.HasValue value)

theorem traceItems_readsValues
    {types : List Ty}
    (hreads : ∀ ty ∈ types, ty.ReadsItsValues)
    {frame : Frame} {position : Nat} {values : List Value} {leaves : List Leaf}
    (htrace : traceItems types frame position = .ok (values, leaves)) :
    (∀ leaf ∈ leaves, leaf.type.isWord = true) ∧
      ((∀ leaf ∈ leaves, isCanonical leaf.type leaf.word = true) →
        HaveValues types values) := by
  induction types generalizing position values leaves with
  | nil =>
      obtain ⟨rfl, rfl⟩ := traceItems_nil_eq_ok_iff.mp htrace
      exact ⟨by simp, fun _ => rfl⟩
  | cons ty rest ih =>
      obtain ⟨first, firstLeaves, others, otherLeaves, hfirst, hothers, rfl, rfl⟩ :=
        traceItems_cons_eq_ok_iff.mp htrace
      rw [List.forall_mem_cons] at hreads
      obtain ⟨hwords, htyped⟩ := hreads.1 frame position first firstLeaves hfirst
      obtain ⟨hotherWords, hotherTyped⟩ := ih hreads.2 hothers
      simp only [List.forall_mem_append]
      refine ⟨⟨hwords, hotherWords⟩, ?_⟩
      intro hcanonical
      exact ⟨first, others, rfl, htyped hcanonical.1, hotherTyped hcanonical.2⟩

theorem readsItsValues
    (ty : Ty) :
    ty.ReadsItsValues := by
  induction ty using layoutInduction with
  | word ty hword =>
      intro frame position value leaves htrace
      obtain ⟨word, -, rfl, rfl⟩ := (trace_word_eq_ok_iff hword).mp htrace
      simp only [List.mem_singleton, forall_eq]
      exact ⟨hword, hasValue_wordValue hword⟩
  | bytes =>
      intro frame position value leaves htrace
      obtain ⟨inner, bytes, -, -, rfl, rfl⟩ := trace_bytes_eq_ok_iff.mp htrace
      exact ⟨by simp, fun _ => ⟨bytes, rfl⟩⟩
  | string =>
      intro frame position value leaves htrace
      obtain ⟨inner, bytes, -, -, rfl, rfl⟩ := trace_string_eq_ok_iff.mp htrace
      exact ⟨by simp, fun _ => ⟨_, rfl⟩⟩
  | array item ih =>
      intro frame position value leaves htrace
      obtain ⟨inner, length, -, -, hread⟩ := trace_array_eq_ok_iff.mp htrace
      rcases hread with ⟨-, rfl, rfl⟩ | ⟨-, items, values, -, -, hread, rfl⟩
      · exact ⟨by simp, fun _ => ⟨[], rfl, by simp⟩⟩
      · have hitems := traceItems_readsValues
          (fun ty hmember => List.eq_of_mem_replicate hmember ▸ ih) hread
        refine ⟨hitems.1, fun hcanonical => ⟨values, rfl, ?_⟩⟩
        exact ((haveValues_replicate _ _ _).mp (hitems.2 hcanonical)).2
  | fixedArray item count ih =>
      intro frame position value leaves htrace
      obtain ⟨inner, values, -, hread, rfl⟩ := trace_fixedArray_eq_ok_iff.mp htrace
      have hitems := traceItems_readsValues
        (fun ty hmember => List.eq_of_mem_replicate hmember ▸ ih) hread
      refine ⟨hitems.1, fun hcanonical => ⟨values, rfl, ?_⟩⟩
      exact (haveValues_replicate _ _ _).mp (hitems.2 hcanonical)
  | tuple items ih =>
      intro frame position value leaves htrace
      obtain ⟨inner, values, -, hread, rfl⟩ := trace_tuple_eq_ok_iff.mp htrace
      have hitems := traceItems_readsValues ih hread
      exact ⟨hitems.1, fun hcanonical => ⟨values, rfl, hitems.2 hcanonical⟩⟩

theorem length_of_traceItems
    {types : List Ty} {frame : Frame} {position : Nat} {values : List Value}
    {leaves : List Leaf}
    (htrace : traceItems types frame position = .ok (values, leaves)) :
    values.length = types.length := by
  induction types generalizing position values leaves with
  | nil => simp [(traceItems_nil_eq_ok_iff.mp htrace).1]
  | cons ty rest ih =>
      obtain ⟨first, firstLeaves, others, otherLeaves, -, hothers, rfl, -⟩ :=
        traceItems_cons_eq_ok_iff.mp htrace
      simp [ih hothers]

theorem traceParams_eq_ok_iff
    {types : List Ty} {data : Bytes} {values : List Value} {leaves : List Leaf}
    (hsized : allEmpty types = false) :
    traceParams types data = .ok (values, leaves) ↔
      leastWordsOf types ≤ data.length / 32 ∧
        traceItems types ⟨data, 0⟩ 0 = .ok (values, leaves) := by
  unfold traceParams
  rw [hsized, if_neg (by simp)]
  split
  · rename_i hshort
    simp only [reduceCtorEq, false_iff]
    rintro ⟨henough, -⟩
    omega
  · rename_i hlong
    rw [and_iff_right (by omega)]

theorem exists_traceItems
    {types : List Ty} {data : Bytes} {values : List Value}
    (hsized : allEmpty types = false)
    (hread : readParams types data = .ok values) :
    ∃ leaves, traceParams types data = .ok (values, leaves) ∧
      traceItems types ⟨data, 0⟩ 0 = .ok (values, leaves) := by
  rw [readParams_eq_traceParams] at hread
  obtain ⟨⟨traced, leaves⟩, htrace, rfl⟩ := map_eq_ok_iff.mp hread
  exact ⟨leaves, htrace, ((traceParams_eq_ok_iff hsized).mp htrace).2⟩

end Ty

theorem Leaf.isClean_iff
    {leaf : Leaf}
    (hword : leaf.type.isWord = true) :
    leaf.IsClean ↔ isCanonical leaf.type leaf.word = true := by
  unfold Leaf.IsClean
  by_cases hfunction : leaf.type = .function
  · simp [hfunction, isCanonical]
  · rw [Ty.isCanonical_iff_exists_encode hword hfunction]
    simp [hfunction]

theorem Judged.eq_ok
    {leaves : List Leaf} {result : Except WordFault Unit}
    (hjudged : Judged leaves result)
    (hcanonical : ∀ leaf ∈ leaves, isCanonical leaf.type leaf.word = true) :
    result = .ok () := by
  unfold Judged at hjudged
  have hnone : (leaves.find? fun leaf => !isCanonical leaf.type leaf.word) = none := by
    rw [List.find?_eq_none]
    intro leaf hmember
    simp [hcanonical leaf hmember]
  rw [hnone] at hjudged
  exact hjudged

theorem Judged.eq_error
    {leaves : List Leaf} {result : Except WordFault Unit}
    (hjudged : Judged leaves result)
    (hdirty : ∃ leaf ∈ leaves, isCanonical leaf.type leaf.word = false) :
    ∃ leaf ∈ leaves, isCanonical leaf.type leaf.word = false ∧
      ∃ position, result = .error (.invalid position leaf.type.name) := by
  unfold Judged at hjudged
  obtain ⟨dirty, hmember, hfault⟩ := hdirty
  have hsome : (leaves.find? fun leaf => !isCanonical leaf.type leaf.word).isSome = true := by
    rw [List.find?_isSome]
    exact ⟨dirty, hmember, by simp [hfault]⟩
  obtain ⟨leaf, hfound⟩ := Option.isSome_iff_exists.mp hsome
  rw [hfound] at hjudged
  have hrefused := List.find?_some hfound
  exact ⟨leaf, List.mem_of_find?_eq_some hfound, by simpa using hrefused, hjudged⟩

theorem Judged.isCanonical_of_eq_ok
    {leaves : List Leaf} {result : Except WordFault Unit}
    (hjudged : Judged leaves result)
    (hok : result = .ok ()) :
    ∀ leaf ∈ leaves, isCanonical leaf.type leaf.word = true := by
  intro leaf hmember
  by_contra hdirty
  obtain ⟨other, -, -, position, hfault⟩ :=
    hjudged.eq_error ⟨leaf, hmember, by simpa using hdirty⟩
  rw [hok] at hfault
  cases hfault

end Abi

/-! ## Decoding against the reading -/

/-- Values are decoded from a reading of clean words, unless there is nothing to read. -/
theorem decodeValues_eq_ok_iff_trace
    {types : List Abi.Ty} {data : Bytes} {values : List Abi.Value}
    (hsized : Abi.Ty.allEmpty types = false) :
    decodeValues types data = .ok values ↔
      ∃ leaves, Abi.Ty.traceParams types data = .ok (values, leaves) ∧
        ∀ leaf ∈ leaves, Abi.isCanonical leaf.type leaf.word = true := by
  have hsome : types ≠ [] := by
    rintro rfl
    cases hsized
  have hjudged : ∀ leaves, Abi.Ty.traceItems types ⟨data, 0⟩ 0 = .ok (values, leaves) →
      Abi.Judged leaves (Abi.Ty.checkParams types data) := fun leaves htrace =>
    Abi.Ty.checkItems_judged (fun ty _ => Abi.Ty.checksWhatItReads ty) data 0
      (fun _ => rfl) htrace
  rw [decodeValues_eq_ok_iff]
  constructor
  · rintro (⟨hnone, -⟩ | ⟨-, hread, hcheck⟩)
    · exact absurd hnone hsome
    · obtain ⟨leaves, htrace, hitems⟩ := Abi.Ty.exists_traceItems hsized hread
      exact ⟨leaves, htrace, (hjudged leaves hitems).isCanonical_of_eq_ok hcheck⟩
  · rintro ⟨leaves, htrace, hcanonical⟩
    obtain ⟨-, hitems⟩ := (Abi.Ty.traceParams_eq_ok_iff hsized).mp htrace
    refine Or.inr ⟨hsome, ?_, (hjudged leaves hitems).eq_ok hcanonical⟩
    rw [Abi.Ty.readParams_eq_traceParams, htrace]
    rfl

theorem decodeValues_eq_nil
    {types : List Abi.Ty} {data : Bytes} {values : List Abi.Value}
    (hempty : Abi.Ty.allEmpty types = true)
    (hdecode : decodeValues types data = .ok values) :
    values = [] := by
  rcases decodeValues_eq_ok_iff.mp hdecode with ⟨-, hnone⟩ | ⟨-, hread, -⟩
  · exact hnone
  · unfold Abi.Ty.readParams at hread
    rw [if_pos hempty, Except.ok.injEq] at hread
    exact hread.symm

/-- Values that were decoded were read from canonical words, and inhabit their types. -/
theorem exists_trace_of_decodeValues
    {types : List Abi.Ty} {data : Bytes} {values : List Abi.Value}
    (hsome : values ≠ [])
    (hdecode : decodeValues types data = .ok values) :
    Abi.Ty.HaveValues types values ∧
      ∃ leaves, Abi.Ty.traceItems types ⟨data, 0⟩ 0 = .ok (values, leaves) ∧
        ∀ leaf ∈ leaves, Abi.isCanonical leaf.type leaf.word = true := by
  have hsized : Abi.Ty.allEmpty types = false := by
    by_contra hempty
    exact hsome (decodeValues_eq_nil (by simpa using hempty) hdecode)
  obtain ⟨leaves, htrace, hcanonical⟩ := (decodeValues_eq_ok_iff_trace hsized).mp hdecode
  obtain ⟨-, hitems⟩ := (Abi.Ty.traceParams_eq_ok_iff hsized).mp htrace
  have hreads := Abi.Ty.traceItems_readsValues (fun ty _ => Abi.Ty.readsItsValues ty) hitems
  exact ⟨hreads.2 hcanonical, leaves, hitems, hcanonical⟩

/-- Arguments are decoded from a reading of clean words, unless there are no parameters. -/
theorem decodeArguments_eq_ok_iff_trace
    {inputs : List ResolvedParam} {data : Bytes} {arguments : List Argument} :
    decodeArguments inputs data = .ok arguments ↔
      inputs = [] ∧ arguments = [] ∨
        Abi.Ty.allEmpty (inputs.map ResolvedParam.ty) = false ∧
          ∃ values leaves,
            Abi.Ty.traceParams (inputs.map ResolvedParam.ty) data = .ok (values, leaves) ∧
              (∀ leaf ∈ leaves, Abi.isCanonical leaf.type leaf.word = true) ∧
              arguments = argumentsFrom 0 inputs values := by
  rw [decodeArguments_eq_ok_iff]
  constructor
  · rintro ⟨values, hvalues, hlength, rfl⟩
    cases hempty : Abi.Ty.allEmpty (inputs.map ResolvedParam.ty) with
    | true =>
        have hnone := decodeValues_eq_nil hempty hvalues
        rw [hnone, List.length_nil] at hlength
        have hinputs := List.length_eq_zero_iff.mp hlength.symm
        exact Or.inl ⟨hinputs, by rw [hinputs]; rfl⟩
    | false =>
        obtain ⟨leaves, htrace, hcanonical⟩ := (decodeValues_eq_ok_iff_trace hempty).mp hvalues
        exact Or.inr ⟨rfl, values, leaves, htrace, hcanonical, rfl⟩
  · rintro (⟨rfl, rfl⟩ | ⟨hsized, values, leaves, htrace, hcanonical, rfl⟩)
    · exact ⟨[], rfl, rfl, rfl⟩
    · obtain ⟨-, hitems⟩ := (Abi.Ty.traceParams_eq_ok_iff hsized).mp htrace
      refine ⟨values, ?_, by simpa using Abi.Ty.length_of_traceItems hitems, rfl⟩
      exact (decodeValues_eq_ok_iff_trace hsized).mpr ⟨leaves, htrace, hcanonical⟩

theorem decodeArguments_agrees_with_readParams
    {inputs : List ResolvedParam} {data : Bytes} {values : List Abi.Value}
    (hsized : Abi.Ty.allEmpty (inputs.map ResolvedParam.ty) = false)
    (hread : Abi.Ty.readParams (inputs.map ResolvedParam.ty) data = .ok values) :
    ∃ leaves,
      Abi.Ty.traceParams (inputs.map ResolvedParam.ty) data = .ok (values, leaves) ∧
        ((∀ leaf ∈ leaves, leaf.IsClean) →
          ∃ arguments, decodeArguments inputs data = .ok arguments ∧
            arguments.map Argument.value = values) ∧
        ((∃ leaf ∈ leaves, ¬ leaf.IsClean) →
          ∃ leaf ∈ leaves, ¬ leaf.IsClean ∧
            ∃ position,
              decodeArguments inputs data =
                .error (.word (.invalid position leaf.type.name))) ∧
        ∀ arguments, decodeArguments inputs data = .ok arguments →
          Abi.Ty.HaveValues (inputs.map ResolvedParam.ty) (arguments.map Argument.value) := by
  have hsome : inputs.map ResolvedParam.ty ≠ [] := by
    intro hnone
    rw [hnone] at hsized
    simp [Abi.Ty.allEmpty] at hsized
  obtain ⟨leaves, htrace, hitems⟩ := Abi.Ty.exists_traceItems hsized hread
  have hlength : values.length = inputs.length := by
    simpa using Abi.Ty.length_of_traceItems hitems
  obtain ⟨hwords, htyped⟩ :=
    Abi.Ty.traceItems_readsValues (fun ty _ => Abi.Ty.readsItsValues ty) hitems
  have hclean : ∀ leaf ∈ leaves,
      (leaf.IsClean ↔ Abi.isCanonical leaf.type leaf.word = true) :=
    fun leaf hmember => Abi.Leaf.isClean_iff (hwords leaf hmember)
  have hjudged : Abi.Judged leaves (Abi.Ty.checkParams (inputs.map ResolvedParam.ty) data) :=
    Abi.Ty.checkItems_judged (fun ty _ => Abi.Ty.checksWhatItReads ty) data 0
      (fun _ => rfl) hitems
  have hdecoded :
      Abi.Ty.checkParams (inputs.map ResolvedParam.ty) data = .ok () →
        decodeArguments inputs data = .ok (argumentsFrom 0 inputs values) := by
    intro hcheck
    exact decodeArguments_eq_ok_iff.mpr
      ⟨values, decodeValues_eq_ok_iff.mpr (Or.inr ⟨hsome, hread, hcheck⟩), hlength, rfl⟩
  refine ⟨leaves, htrace, ?_, ?_, ?_⟩
  · intro hall
    have hcheck := hjudged.eq_ok fun leaf hmember => (hclean leaf hmember).mp (hall leaf hmember)
    exact ⟨_, hdecoded hcheck, map_value_argumentsFrom 0 hlength⟩
  · intro hdirty
    obtain ⟨dirty, hmember, hrefused⟩ := hdirty
    rw [hclean dirty hmember, Bool.not_eq_true] at hrefused
    obtain ⟨leaf, hleaf, hfault, position, hcheck⟩ := hjudged.eq_error ⟨dirty, hmember, hrefused⟩
    refine ⟨leaf, hleaf, ?_, position, ?_⟩
    · rw [hclean leaf hleaf, hfault]
      simp
    · unfold decodeArguments decodeValues
      rw [if_neg (by simpa using hsome), hread, hcheck]
  · intro arguments hok
    obtain ⟨decoded, hvalues, -, rfl⟩ := decodeArguments_eq_ok_iff.mp hok
    rcases decodeValues_eq_ok_iff.mp hvalues with ⟨hnone, -⟩ | ⟨-, hreadAgain, hcheck⟩
    · exact absurd hnone hsome
    · obtain rfl : values = decoded := by simpa [hread] using hreadAgain
      rw [map_value_argumentsFrom 0 hlength]
      exact htyped (hjudged.isCanonical_of_eq_ok hcheck)

/-! An array and a number that is itself the offset of the array: the word of the item is
not a flag, and it lies where no encoder would put it. -/

def overlappedInputs : List ResolvedParam :=
  [⟨"flags", .array .bool⟩, ⟨"level", .uint .byte⟩]

def overlappedData : Bytes :=
  Abi.Part.word 32 ++ Abi.Part.word 1 ++ Abi.Part.word 2

theorem decodeArguments_agrees_with_readParams_overlapped :
    Abi.Ty.allEmpty (overlappedInputs.map ResolvedParam.ty) = false ∧
      Abi.Ty.readParams (overlappedInputs.map ResolvedParam.ty) overlappedData =
        .ok [.array [.bool true], .uint 1 8] ∧
      ∃ leaves,
        Abi.Ty.traceParams (overlappedInputs.map ResolvedParam.ty) overlappedData =
            .ok ([.array [.bool true], .uint 1 8], leaves) ∧
          ∃ leaf ∈ leaves, ¬ leaf.IsClean ∧
            ∃ position,
              decodeArguments overlappedInputs overlappedData =
                .error (.word (.invalid position leaf.type.name)) := by
  have hsized : Abi.Ty.allEmpty (overlappedInputs.map ResolvedParam.ty) = false := rfl
  have hread :
      Abi.Ty.readParams (overlappedInputs.map ResolvedParam.ty) overlappedData =
        .ok [.array [.bool true], .uint 1 8] := by
    cbv
  have hrefused :
      Abi.Ty.checkParams (overlappedInputs.map ResolvedParam.ty) overlappedData ≠ .ok () := by
    decide +kernel
  obtain ⟨leaves, htrace, hclean, hdirty, -⟩ :=
    decodeArguments_agrees_with_readParams hsized hread
  refine ⟨hsized, hread, leaves, htrace, hdirty ?_⟩
  by_contra hnone
  push Not at hnone
  obtain ⟨arguments, hdecoded, -⟩ := hclean hnone
  obtain ⟨values, hvalues, -, -⟩ := decodeArguments_eq_ok_iff.mp hdecoded
  rcases decodeValues_eq_ok_iff.mp hvalues with ⟨hempty, -⟩ | ⟨-, -, hcheck⟩
  · cases hempty
  · exact hrefused hcheck

end MintWatch
