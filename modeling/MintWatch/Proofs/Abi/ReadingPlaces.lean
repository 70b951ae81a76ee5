import Mathlib
import MintWatch.Proofs.Abi.EncodedSize
import MintWatch.Proofs.Abi.Walks
/-!
# Where a reading leaves the check

The check goes from head to head, and from item to item of static arrays, without asking
whether the bytes are there.  What it can rely on is the reading that came before: behind
every static value that was read there are all its words, every offset that was followed
leads into the data, and the items of a value were read at the places where the check looks
for them.  Values that carry no information are not always read, but take no bytes either.
-/

namespace MintWatch
namespace Abi

/-! ## What words that were found need -/

theorem add_le_of_offsetAt
    {data : Bytes} {position number : Nat}
    (hoffset : offsetAt data position = .ok number) :
    position + 32 ≤ data.length := by
  unfold offsetAt at hoffset
  cases hword : wordAt data position with
  | error fault => simp [hword] at hoffset
  | ok word =>
      have hlength := congrArg List.length (wordAt_eq_ok_iff.mp hword)
      rw [word.length_toList, List.length_take, List.length_drop] at hlength
      omega

theorem tailAt_eq_ok_iff
    {data tail : Bytes} {position : Nat} :
    tailAt data position = .ok tail ↔
      ∃ offset, offsetAt data position = .ok offset ∧ offset ≤ data.length ∧
        tail = data.drop offset := by
  unfold tailAt
  cases offsetAt data position with
  | error fault => simp
  | ok offset =>
      by_cases hbeyond : data.length < offset
      · simp [hbeyond]
      · simp [hbeyond, not_lt.mp hbeyond, eq_comm]

theorem length_le_of_tailAt
    {data tail : Bytes} {position : Nat}
    (htail : tailAt data position = .ok tail) :
    tail.length ≤ data.length := by
  obtain ⟨offset, -, -, rfl⟩ := tailAt_eq_ok_iff.mp htail
  rw [List.length_drop]
  omega

/-- The reader and the check follow an offset to the same bytes. -/
theorem data_of_follow
    {frame inner : Frame} {tail : Bytes} {position : Nat}
    (hfollow : frame.follow position = .ok inner)
    (htail : tailAt frame.data position = .ok tail) :
    inner.data = tail := by
  rw [tailAt_of_follow hfollow, Except.ok.injEq] at htail
  exact htail

theorem Judged.ne_missing
    {leaves : List Leaf} {result : Except WordFault Unit}
    (hjudged : Judged leaves result)
    (position : Nat) :
    result ≠ .error (.missing position) := by
  unfold Judged at hjudged
  split at hjudged
  · rw [hjudged]
    simp
  · obtain ⟨place, hjudged⟩ := hjudged
    rw [hjudged]
    simp

namespace Ty

theorem exists_tailAt_of_check
    {ty : Ty} {data : Bytes} {position : Nat}
    (hdynamic : ty.isDynamic = true)
    (hcheck : check ty data position = .ok ()) :
    ∃ tail, tailAt data position = .ok tail := by
  cases ty with
  | bytes =>
      obtain ⟨tail, htail, -⟩ := map_eq_ok_iff.mp hcheck
      exact ⟨tail, htail⟩
  | string =>
      obtain ⟨tail, htail, -⟩ := map_eq_ok_iff.mp hcheck
      exact ⟨tail, htail⟩
  | array item =>
      obtain ⟨tail, htail, -⟩ := bind_eq_ok_iff.mp hcheck
      exact ⟨tail, htail⟩
  | fixedArray item count =>
      rw [isDynamic] at hdynamic
      rw [check, if_pos hdynamic] at hcheck
      obtain ⟨tail, htail, -⟩ := bind_eq_ok_iff.mp hcheck
      exact ⟨tail, htail⟩
  | tuple items =>
      rw [isDynamic] at hdynamic
      rw [check, if_pos hdynamic] at hcheck
      obtain ⟨tail, htail, -⟩ := bind_eq_ok_iff.mp hcheck
      exact ⟨tail, htail⟩
  | _ => cases hdynamic

/-! ## Types without information -/

theorem allEmpty_eq_true_iff
    (types : List Ty) :
    allEmpty types = true ↔ ∀ ty ∈ types, ty.isEmpty = true :=
  forall_iff_of_cons (fun types => allEmpty types = true) rfl
    (fun ty rest => by rw [allEmpty, Bool.and_eq_true]) types

theorem allEmpty_replicate
    {item : Ty}
    (count : Nat)
    (hempty : item.isEmpty = true) :
    allEmpty (List.replicate count item) = true := by
  rw [allEmpty_eq_true_iff]
  intro ty hmember
  rw [List.eq_of_mem_replicate hmember, hempty]

theorem isEmpty_of_leastWords_eq_zero
    (ty : Ty)
    (hnothing : ty.leastWords = 0) :
    ty.isEmpty = true := by
  induction ty using layoutInduction with
  | word ty hword => simp [leastWords_of_isWord hword] at hnothing
  | bytes => simp [leastWords] at hnothing
  | string => simp [leastWords] at hnothing
  | array item ih => simp [leastWords] at hnothing
  | fixedArray item count ih =>
      have hpos := count.pos
      simp only [leastWords, Nat.mul_eq_zero] at hnothing
      exact ih (by omega)
  | tuple items ih =>
      simp only [leastWords] at hnothing
      rw [isEmpty, allEmpty_eq_true_iff]
      exact fun ty hmember => ih ty hmember (leastWords_of_mem hnothing hmember)

theorem wordsOf_eq_zero_iff
    (types : List Ty) :
    wordsOf types = 0 ↔ ∀ ty ∈ types, ty.words = 0 :=
  forall_iff_of_cons (fun types => wordsOf types = 0) rfl
    (fun ty rest => by rw [wordsOf, Nat.add_eq_zero_iff]) types

theorem anyDynamic_eq_false_iff
    (types : List Ty) :
    anyDynamic types = false ↔ ∀ ty ∈ types, ty.isDynamic = false :=
  forall_iff_of_cons (fun types => anyDynamic types = false) rfl
    (fun ty rest => by rw [anyDynamic, Bool.or_eq_false_iff]) types

theorem words_of_isEmpty
    (ty : Ty)
    (hempty : ty.isEmpty = true)
    (hstatic : ty.isDynamic = false) :
    ty.words = 0 := by
  induction ty using layoutInduction with
  | word ty hword => cases ty <;> simp_all [isWord, isEmpty]
  | bytes => cases hstatic
  | string => cases hstatic
  | array item ih => cases hstatic
  | fixedArray item count ih =>
      rw [isEmpty] at hempty
      rw [isDynamic] at hstatic
      rw [words, ih hempty hstatic, Nat.zero_mul]
  | tuple items ih =>
      rw [isEmpty, allEmpty_eq_true_iff] at hempty
      rw [isDynamic, anyDynamic_eq_false_iff] at hstatic
      exact (wordsOf_eq_zero_iff items).mpr fun ty hmember =>
        ih ty hmember (hempty ty hmember) (hstatic ty hmember)

/-! ## What readings of static types need -/

/-- A static value that was read inside the data ends inside it. -/
def EndsInside (ty : Ty) : Prop :=
  ∀ frame position value leaves, ty.isDynamic = false →
    position ≤ frame.data.length →
      trace ty frame position = .ok (value, leaves) →
        position + 32 * ty.words ≤ frame.data.length

theorem traceItems_endsInside
    {types : List Ty}
    (hends : ∀ ty ∈ types, ty.EndsInside)
    {frame : Frame} {position : Nat} {values : List Value} {leaves : List Leaf}
    (hstatic : anyDynamic types = false)
    (hposition : position ≤ frame.data.length)
    (htrace : traceItems types frame position = .ok (values, leaves)) :
    position + 32 * wordsOf types ≤ frame.data.length := by
  induction types generalizing position values leaves with
  | nil => exact hposition
  | cons ty rest ih =>
      obtain ⟨first, firstLeaves, others, otherLeaves, hfirst, hothers, -, -⟩ :=
        traceItems_cons_eq_ok_iff.mp htrace
      rw [List.forall_mem_cons] at hends
      simp only [anyDynamic, Bool.or_eq_false_iff] at hstatic
      have hend := hends.1 frame position first firstLeaves hstatic.1 hposition hfirst
      rw [headSize, hstatic.1, if_neg (by simp)] at hothers
      have hrest := ih hends.2 hstatic.2 hend hothers
      rw [wordsOf]
      omega

theorem endsInside
    (ty : Ty) :
    ty.EndsInside := by
  induction ty using layoutInduction with
  | word ty hword =>
      intro frame position value leaves _ hposition htrace
      obtain ⟨word, hread, -, -⟩ := (trace_word_eq_ok_iff hword).mp htrace
      have hlength := congrArg List.length (Frame.word_eq_ok_iff.mp hread)
      rw [word.length_toList, List.length_take, List.length_drop] at hlength
      rw [words_of_isWord hword]
      omega
  | bytes =>
      intro frame position value leaves hstatic
      cases hstatic
  | string =>
      intro frame position value leaves hstatic
      cases hstatic
  | array item ih =>
      intro frame position value leaves hstatic
      cases hstatic
  | fixedArray item count ih =>
      intro frame position value leaves hstatic hposition htrace
      rw [isDynamic] at hstatic
      obtain ⟨inner, values, hinner, hread, -⟩ := trace_fixedArray_eq_ok_iff.mp htrace
      rw [hstatic, if_neg (by simp)] at hinner
      obtain ⟨-, -, rfl⟩ := Frame.openAt_eq_ok_iff.mp hinner
      have hend := traceItems_endsInside
        (fun ty hmember => List.eq_of_mem_replicate hmember ▸ ih)
        ((anyDynamic_replicate item count.pos).trans hstatic) (Nat.zero_le _) hread
      rw [wordsOf_replicate, List.length_drop] at hend
      rw [words, Nat.mul_comm item.words]
      omega
  | tuple items ih =>
      intro frame position value leaves hstatic hposition htrace
      rw [isDynamic] at hstatic
      obtain ⟨inner, values, hinner, hread, -⟩ := trace_tuple_eq_ok_iff.mp htrace
      rw [hstatic, if_neg (by simp)] at hinner
      obtain ⟨-, -, rfl⟩ := Frame.openAt_eq_ok_iff.mp hinner
      have hend := traceItems_endsInside ih hstatic (Nat.zero_le _) hread
      rw [List.length_drop] at hend
      rw [words]
      omega

/-! ## Positions of readings -/

section Positions

variable {ty : Ty} {types : List Ty} {data : Bytes} {position : Nat}

/-- Whether a position of the check is that of a reading, which may count from a base as
long as no offset is followed, or of a value that carries no information. -/
def IsReadAt (ty : Ty) (data : Bytes) (position : Nat) : Prop :=
  ty.isEmpty = true ∨
    ∃ base place depth value leaves, position = base + place ∧
      (ty.isDynamic = true → base = 0) ∧
      trace ty ⟨data.drop base, depth⟩ place = .ok (value, leaves)

/-- Whether the same holds of values whose heads follow each other. -/
def AreReadAt (types : List Ty) (data : Bytes) (position : Nat) : Prop :=
  allEmpty types = true ∨
    ∃ base place depth values leaves, position = base + place ∧
      (anyDynamic types = true → base = 0) ∧
      traceItems types ⟨data.drop base, depth⟩ place = .ok (values, leaves)

theorem areReadAt_zero
    {depth : Nat} {values : List Value} {leaves : List Leaf}
    (htrace : traceItems types ⟨data, depth⟩ 0 = .ok (values, leaves)) :
    AreReadAt types data 0 :=
  Or.inr ⟨0, 0, depth, values, leaves, rfl, fun _ => rfl, htrace⟩

theorem AreReadAt.cons
    {rest : List Ty}
    (hread : AreReadAt (ty :: rest) data position) :
    ty.IsReadAt data position ∧ AreReadAt rest data (position + ty.headSize) := by
  rcases hread with hempty | ⟨base, place, depth, values, leaves, rfl, hbase, htrace⟩
  · rw [allEmpty, Bool.and_eq_true] at hempty
    exact ⟨Or.inl hempty.1, Or.inl hempty.2⟩
  · obtain ⟨first, firstLeaves, others, otherLeaves, hfirst, hothers, -, -⟩ :=
      traceItems_cons_eq_ok_iff.mp htrace
    simp only [anyDynamic, Bool.or_eq_true] at hbase
    constructor
    · exact Or.inr ⟨base, place, depth, first, firstLeaves, rfl,
        fun hdynamic => hbase (Or.inl hdynamic), hfirst⟩
    · exact Or.inr ⟨base, place + ty.headSize, depth, others, otherLeaves, by omega,
        fun hdynamic => hbase (Or.inr hdynamic), hothers⟩

theorem IsReadAt.add_words_le
    (hread : ty.IsReadAt data position)
    (hstatic : ty.isDynamic = false)
    (hposition : position ≤ data.length) :
    position + 32 * ty.words ≤ data.length := by
  rcases hread with hempty | ⟨base, place, depth, value, leaves, rfl, -, htrace⟩
  · rw [words_of_isEmpty ty hempty hstatic]
    exact hposition
  · have hplace : place ≤ (data.drop base).length := by
      rw [List.length_drop]
      omega
    have hend := endsInside ty ⟨data.drop base, depth⟩ place value leaves hstatic hplace htrace
    rw [List.length_drop] at hend
    omega

/-- Where the check goes on to behind a value, there is data. -/
theorem IsReadAt.add_headSize_le
    (hread : ty.IsReadAt data position)
    (hposition : position ≤ data.length)
    (hcheck : check ty data position = .ok ()) :
    position + ty.headSize ≤ data.length := by
  unfold headSize
  by_cases hdynamic : ty.isDynamic = true
  · obtain ⟨tail, htail⟩ := exists_tailAt_of_check hdynamic hcheck
    obtain ⟨offset, hoffset, -, -⟩ := tailAt_eq_ok_iff.mp htail
    rw [if_pos hdynamic]
    exact add_le_of_offsetAt hoffset
  · rw [if_neg hdynamic]
    exact hread.add_words_le (by simpa using hdynamic) hposition

theorem IsReadAt.array_items
    {item : Ty} {tail : Bytes} {length : Nat}
    (hread : (array item).IsReadAt data position)
    (htail : tailAt data position = .ok tail)
    (hlength : offsetAt tail 0 = .ok length) :
    AreReadAt (List.replicate length item) (tail.drop 32) 0 := by
  rcases hread with hempty | ⟨base, place, depth, value, leaves, rfl, hbase, htrace⟩
  · exact Or.inl (allEmpty_replicate length hempty)
  · obtain rfl := hbase rfl
    obtain ⟨inner, number, hfollow, hnumber, hitems⟩ := trace_array_eq_ok_iff.mp htrace
    rw [Nat.zero_add] at htail
    obtain rfl := data_of_follow hfollow htail
    rw [offsetAt_of_number hnumber, Except.ok.injEq] at hlength
    subst hlength
    rcases hitems with ⟨hnothing | hnothing, -, -⟩ | ⟨-, opened, values, hopen, -, hitems, -⟩
    · rw [hnothing]
      exact Or.inl rfl
    · exact Or.inl (allEmpty_replicate number (isEmpty_of_leastWords_eq_zero item hnothing))
    · obtain ⟨-, -, rfl⟩ := Frame.openAt_eq_ok_iff.mp hopen
      exact areReadAt_zero hitems

theorem IsReadAt.fixedArray_items_of_dynamic
    {item : Ty} {count : Count} {tail : Bytes}
    (hread : (fixedArray item count).IsReadAt data position)
    (hdynamic : item.isDynamic = true)
    (htail : tailAt data position = .ok tail) :
    AreReadAt (List.replicate count.val item) tail 0 := by
  rcases hread with hempty | ⟨base, place, depth, value, leaves, rfl, hbase, htrace⟩
  · exact Or.inl (allEmpty_replicate count.val hempty)
  · obtain rfl := hbase hdynamic
    obtain ⟨inner, values, hinner, hitems, -⟩ := trace_fixedArray_eq_ok_iff.mp htrace
    rw [if_pos hdynamic] at hinner
    rw [Nat.zero_add] at htail
    obtain rfl := data_of_follow hinner htail
    exact areReadAt_zero hitems

theorem IsReadAt.fixedArray_items_of_static
    {item : Ty} {count : Count}
    (hread : (fixedArray item count).IsReadAt data position)
    (hstatic : item.isDynamic = false) :
    AreReadAt (List.replicate count.val item) data position := by
  rcases hread with hempty | ⟨base, place, depth, value, leaves, rfl, -, htrace⟩
  · exact Or.inl (allEmpty_replicate count.val hempty)
  · obtain ⟨inner, values, hinner, hitems, -⟩ := trace_fixedArray_eq_ok_iff.mp htrace
    rw [hstatic, if_neg (by simp)] at hinner
    obtain ⟨-, -, rfl⟩ := Frame.openAt_eq_ok_iff.mp hinner
    simp only [List.drop_drop] at hitems
    refine Or.inr ⟨base + place, 0, depth + 1, values, leaves, rfl, fun hdynamic => ?_, hitems⟩
    rw [anyDynamic_replicate item count.pos, hstatic] at hdynamic
    cases hdynamic

theorem IsReadAt.tuple_items_of_dynamic
    {tail : Bytes}
    (hread : (tuple types).IsReadAt data position)
    (hdynamic : anyDynamic types = true)
    (htail : tailAt data position = .ok tail) :
    AreReadAt types tail 0 := by
  rcases hread with hempty | ⟨base, place, depth, value, leaves, rfl, hbase, htrace⟩
  · exact Or.inl hempty
  · obtain rfl := hbase hdynamic
    obtain ⟨inner, values, hinner, hitems, -⟩ := trace_tuple_eq_ok_iff.mp htrace
    rw [if_pos hdynamic] at hinner
    rw [Nat.zero_add] at htail
    obtain rfl := data_of_follow hinner htail
    exact areReadAt_zero hitems

theorem IsReadAt.tuple_items_of_static
    (hread : (tuple types).IsReadAt data position)
    (hstatic : anyDynamic types = false) :
    AreReadAt types (data.drop position) 0 := by
  rcases hread with hempty | ⟨base, place, depth, value, leaves, rfl, -, htrace⟩
  · exact Or.inl hempty
  · obtain ⟨inner, values, hinner, hitems, -⟩ := trace_tuple_eq_ok_iff.mp htrace
    rw [hstatic, if_neg (by simp)] at hinner
    obtain ⟨-, -, rfl⟩ := Frame.openAt_eq_ok_iff.mp hinner
    simp only [List.drop_drop] at hitems
    exact areReadAt_zero hitems

end Positions

/-! ## The check of a parameter list -/

section Parameters

variable {types : List Ty} {data : Bytes} {values : List Value}

theorem areReadAt_of_readParams
    (hread : readParams types data = .ok values) :
    AreReadAt types data 0 := by
  cases hempty : allEmpty types with
  | true => exact Or.inl hempty
  | false =>
      obtain ⟨leaves, -, htrace⟩ := exists_traceItems hempty hread
      exact areReadAt_zero htrace

theorem checkParams_ne_missing
    (hsized : allEmpty types = false)
    (hread : readParams types data = .ok values)
    (position : Nat) :
    checkParams types data ≠ .error (.missing position) := by
  obtain ⟨leaves, -, htrace⟩ := exists_traceItems hsized hread
  have hjudged : Judged leaves (checkParams types data) :=
    checkItems_judged (fun ty _ => checksWhatItReads ty) data 0 (fun _ => rfl) htrace
  exact hjudged.ne_missing position

end Parameters

end Ty
end Abi
end MintWatch
