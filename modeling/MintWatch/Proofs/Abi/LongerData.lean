import Mathlib
import MintWatch.Proofs.Abi.Walks
/-!
# Reading longer data

Everything that is read lies in front of the end of the data, and all bounds are lower
bounds on what is left.  So a reading that succeeds is the same reading when more bytes
follow.  Frames open inside each other, and each of them reaches to the end of the data;
that one frame extends another is therefore kept from frame to frame.
-/

namespace MintWatch
namespace Abi

/-! ## Frames -/

/-- Whether a frame holds what another holds, and maybe more behind it. -/
structure Frame.Extends (wider frame : Frame) : Prop where
  data : frame.data <+: wider.data
  depth : frame.depth = wider.depth

namespace Frame.Extends

variable {wider frame inner : Frame} {position offset : Nat}

theorem word
    {word : Word}
    (hextends : wider.Extends frame)
    (hword : frame.word position = .ok word) :
    wider.word position = .ok word := by
  have hbytes := word_eq_ok_iff.mp hword
  have henough : (frame.data.drop position).length ≥ 32 := by
    have hlength := congrArg List.length hbytes
    rw [word.length_toList, List.length_take] at hlength
    omega
  obtain ⟨more, hmore⟩ := hextends.data.drop position
  rw [word_eq_ok_iff, ← hmore, List.take_append_of_le_length henough]
  exact hbytes

theorem number
    {number : Nat}
    (hextends : wider.Extends frame)
    (hnumber : frame.number position = .ok number) :
    wider.number position = .ok number := by
  obtain ⟨word, hword, hvalue, hlt⟩ := number_eq_ok_iff.mp hnumber
  exact number_eq_ok_iff.mpr ⟨word, hextends.word hword, hvalue, hlt⟩

theorem openAt
    (hextends : wider.Extends frame)
    (hopen : frame.openAt offset = .ok inner) :
    ∃ opened, wider.openAt offset = .ok opened ∧ opened.Extends inner := by
  obtain ⟨hdepth, hle, rfl⟩ := openAt_eq_ok_iff.mp hopen
  have hlonger := hextends.data.length_le
  rw [hextends.depth] at hdepth
  refine ⟨_, openAt_eq_ok_iff.mpr ⟨hdepth, by omega, rfl⟩, ?_, ?_⟩
  · exact hextends.data.drop offset
  · rw [hextends.depth]

theorem follow
    (hextends : wider.Extends frame)
    (hfollow : frame.follow position = .ok inner) :
    ∃ opened, wider.follow position = .ok opened ∧ opened.Extends inner := by
  obtain ⟨offset, hnumber, hopen⟩ := follow_eq_ok_iff.mp hfollow
  obtain ⟨opened, hopened, hinner⟩ := hextends.openAt hopen
  exact ⟨opened, follow_eq_ok_iff.mpr ⟨offset, hextends.number hnumber, hopened⟩, hinner⟩

theorem contents
    {bytes : Bytes}
    (hextends : wider.Extends frame)
    (hcontents : frame.contents = .ok bytes) :
    wider.contents = .ok bytes := by
  obtain ⟨length, hnumber, henough, rfl⟩ := contents_eq_ok_iff.mp hcontents
  obtain ⟨more, hmore⟩ := hextends.data.drop 32
  refine contents_eq_ok_iff.mpr ⟨length, hextends.number hnumber, ?_, ?_⟩
  · rw [← hmore, List.length_append]
    omega
  · rw [← hmore, List.take_append_of_le_length henough]

theorem wordCount_le
    (hextends : wider.Extends frame) :
    frame.wordCount ≤ wider.wordCount :=
  Nat.div_le_div_right hextends.data.length_le

end Frame.Extends

/-! ## Readings -/

namespace Ty

/-- What is read in a frame is read in every frame that extends it. -/
def ReadsOn (ty : Ty) : Prop :=
  ∀ frame wider position value leaves, wider.Extends frame →
    trace ty frame position = .ok (value, leaves) →
      trace ty wider position = .ok (value, leaves)

theorem traceItems_readsOn
    {types : List Ty}
    (hreads : ∀ ty ∈ types, ty.ReadsOn)
    {frame wider : Frame} {position : Nat} {values : List Value} {leaves : List Leaf}
    (hextends : wider.Extends frame)
    (htrace : traceItems types frame position = .ok (values, leaves)) :
    traceItems types wider position = .ok (values, leaves) := by
  induction types generalizing position values leaves with
  | nil => exact htrace
  | cons ty rest ih =>
      obtain ⟨first, firstLeaves, others, otherLeaves, hfirst, hothers, hvalues, hleaves⟩ :=
        traceItems_cons_eq_ok_iff.mp htrace
      rw [List.forall_mem_cons] at hreads
      have hwider := hreads.1 frame wider position first firstLeaves hextends hfirst
      have hrest := ih hreads.2 hothers
      exact traceItems_cons_eq_ok_iff.mpr
        ⟨first, firstLeaves, others, otherLeaves, hwider, hrest, hvalues, hleaves⟩

theorem exists_opened_of_extends
    {frame wider inner : Frame} {position : Nat} {dynamic : Bool}
    (hextends : wider.Extends frame)
    (hinner : (if dynamic then frame.follow position else frame.openAt position) = .ok inner) :
    ∃ opened, (if dynamic then wider.follow position else wider.openAt position) = .ok opened ∧
      opened.Extends inner := by
  cases dynamic with
  | true => exact hextends.follow hinner
  | false => exact hextends.openAt hinner

theorem readsOn
    (ty : Ty) :
    ty.ReadsOn := by
  induction ty using layoutInduction with
  | word ty hword =>
      intro frame wider position value leaves hextends htrace
      obtain ⟨word, hread, hvalue, hleaves⟩ := (trace_word_eq_ok_iff hword).mp htrace
      exact (trace_word_eq_ok_iff hword).mpr ⟨word, hextends.word hread, hvalue, hleaves⟩
  | bytes =>
      intro frame wider position value leaves hextends htrace
      obtain ⟨inner, bytes, hfollow, hcontents, hread⟩ := trace_bytes_eq_ok_iff.mp htrace
      obtain ⟨opened, hopened, hinner⟩ := hextends.follow hfollow
      exact trace_bytes_eq_ok_iff.mpr ⟨opened, bytes, hopened, hinner.contents hcontents, hread⟩
  | string =>
      intro frame wider position value leaves hextends htrace
      obtain ⟨inner, bytes, hfollow, hcontents, hread⟩ := trace_string_eq_ok_iff.mp htrace
      obtain ⟨opened, hopened, hinner⟩ := hextends.follow hfollow
      exact trace_string_eq_ok_iff.mpr ⟨opened, bytes, hopened, hinner.contents hcontents, hread⟩
  | array item ih =>
      intro frame wider position value leaves hextends htrace
      obtain ⟨inner, length, hfollow, hlength, hread⟩ := trace_array_eq_ok_iff.mp htrace
      obtain ⟨opened, hopened, hinner⟩ := hextends.follow hfollow
      refine trace_array_eq_ok_iff.mpr ⟨opened, length, hopened, hinner.number hlength, ?_⟩
      rcases hread with hnothing | ⟨hsome, items, values, hitems, henough, hread, hvalue⟩
      · exact Or.inl hnothing
      · obtain ⟨found, hfound, hwider⟩ := hinner.openAt hitems
        have hcount := hwider.wordCount_le
        have hvalues := traceItems_readsOn
          (fun ty hmember => List.eq_of_mem_replicate hmember ▸ ih) hwider hread
        exact Or.inr ⟨hsome, found, values, hfound, henough.trans hcount, hvalues, hvalue⟩
  | fixedArray item count ih =>
      intro frame wider position value leaves hextends htrace
      obtain ⟨inner, values, hinner, hread, hvalue⟩ := trace_fixedArray_eq_ok_iff.mp htrace
      obtain ⟨opened, hopened, hwider⟩ := exists_opened_of_extends hextends hinner
      have hvalues := traceItems_readsOn
        (fun ty hmember => List.eq_of_mem_replicate hmember ▸ ih) hwider hread
      exact trace_fixedArray_eq_ok_iff.mpr ⟨opened, values, hopened, hvalues, hvalue⟩
  | tuple items ih =>
      intro frame wider position value leaves hextends htrace
      obtain ⟨inner, values, hinner, hread, hvalue⟩ := trace_tuple_eq_ok_iff.mp htrace
      obtain ⟨opened, hopened, hwider⟩ := exists_opened_of_extends hextends hinner
      have hvalues := traceItems_readsOn ih hwider hread
      exact trace_tuple_eq_ok_iff.mpr ⟨opened, values, hopened, hvalues, hvalue⟩

theorem traceParams_append
    {types : List Ty} {data : Bytes} {values : List Value} {leaves : List Leaf}
    (more : Bytes)
    (hsized : allEmpty types = false)
    (htrace : traceParams types data = .ok (values, leaves)) :
    traceParams types (data ++ more) = .ok (values, leaves) := by
  obtain ⟨henough, hitems⟩ := (traceParams_eq_ok_iff hsized).mp htrace
  have hextends : Frame.Extends ⟨data ++ more, 0⟩ ⟨data, 0⟩ := ⟨List.prefix_append data more, rfl⟩
  refine (traceParams_eq_ok_iff hsized).mpr ⟨henough.trans hextends.wordCount_le, ?_⟩
  exact traceItems_readsOn (fun ty _ => readsOn ty) hextends hitems

end Ty
end Abi
end MintWatch
