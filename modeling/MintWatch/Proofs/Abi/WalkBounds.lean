import Mathlib
import MintWatch.Proofs.Abi.ReadingPlaces
import MintWatch.Proofs.Abi.WalkUses
/-!
# Bounds of the check

Walking through a list that was read uses no number of more than 64 bits, goes to no
position behind the bytes, and takes no bytes that are not there.  The one thing that the
reading does not vouch for is a list of types that carry no information, since nothing at
all is read for it; there an offset may lead beyond the data, and the walk ends with it.
-/

namespace MintWatch
namespace Abi

/-! ## Walks that end inside the data -/

namespace Walk

variable {α β : Type} {data : Bytes} {position : Nat}

def IsSafe (walk : Walk α) : Prop :=
  ∀ use ∈ walk.uses, use.IsSafe

/-- Whether the last use is an offset that leads beyond its bytes, for which the walk is
refused, and all uses before it are safe. -/
def EndsOutside (walk : Walk α) : Prop :=
  ∃ before offset length, walk.uses = before ++ [.place .tail offset length] ∧
    (∀ use ∈ before, use.IsSafe) ∧ length < offset ∧ walk.result = .error (.missing offset)

def IsBounded (walk : Walk α) : Prop :=
  walk.IsSafe ∨ walk.EndsOutside

theorem IsBounded.andThen
    {first : Walk α} {next : α → Walk β}
    (hfirst : first.IsBounded)
    (hnext : ∀ value, first.result = .ok value → (next value).IsBounded) :
    (first.andThen next).IsBounded := by
  unfold Walk.andThen
  rcases hfirst with hsafe | ⟨before, offset, length, huses, hsafe, hbeyond, hrefused⟩
  · cases hresult : first.result with
    | error fault => exact Or.inl hsafe
    | ok value =>
        rcases hnext value hresult with
          hrest | ⟨before, offset, length, huses, hbefore, hbeyond, hrefused⟩
        · exact Or.inl (List.forall_mem_append.mpr ⟨hsafe, hrest⟩)
        · refine Or.inr ⟨first.uses ++ before, offset, length, ?_, ?_, hbeyond, hrefused⟩
          · simp only [huses, List.append_assoc]
          · exact List.forall_mem_append.mpr ⟨hsafe, hbefore⟩
  · rw [hrefused]
    exact Or.inr ⟨before, offset, length, huses, hsafe, hbeyond, rfl⟩

theorem isBounded_done : done.IsBounded :=
  Or.inl fun _ hmember => absurd hmember List.not_mem_nil

theorem isBounded_note
    {uses : List Use}
    (hsafe : ∀ use ∈ uses, use.IsSafe) :
    (note uses).IsBounded :=
  Or.inl hsafe

theorem isBounded_word
    (hshort : data.length < 2 ^ 62)
    (hposition : position ≤ data.length) :
    (word data position).IsBounded := by
  have hend : position + 32 < 2 ^ 64 := by omega
  exact Or.inl (List.forall_mem_singleton.mpr hend)

theorem isBounded_offset
    (hshort : data.length < 2 ^ 62)
    (hposition : position ≤ data.length) :
    (offset data position).IsBounded := by
  apply (isBounded_word hshort hposition).andThen
  intro word _
  have hcut : Use.IsSafe (.cut 24 32) := by simp [Use.IsSafe]
  exact Or.inl (List.forall_mem_singleton.mpr hcut)

theorem isBounded_tail
    (hshort : data.length < 2 ^ 62)
    (hposition : position ≤ data.length) :
    (tail data position).IsBounded := by
  apply (isBounded_offset hshort hposition).andThen
  intro offset _
  by_cases hbeyond : data.length < offset
  · exact Or.inr ⟨[], offset, data.length, rfl, by simp, hbeyond, if_pos hbeyond⟩
  · have hinside : offset ≤ data.length := not_lt.mp hbeyond
    exact Or.inl (List.forall_mem_singleton.mpr hinside)

/-- What comes behind an offset has to be bounded in the tail alone. -/
theorem isBounded_behind_tail
    {next : Bytes → Walk α}
    (hshort : data.length < 2 ^ 62)
    (hposition : position ≤ data.length)
    (hnext : ∀ tail, tailAt data position = .ok tail → tail.length < 2 ^ 62 →
      (next tail).IsBounded) :
    ((tail data position).andThen next).IsBounded := by
  apply (isBounded_tail hshort hposition).andThen
  intro tail htail
  rw [result_tail] at htail
  have hless := length_le_of_tailAt htail
  exact hnext tail htail (by omega)

end Walk

namespace Ty

/-! ## Numbers that sizes are made of -/

/-- Whether all numbers on the way to the number of words have 64 bits if that number has. -/
def HasSafeSizes (ty : Ty) : Prop :=
  ty.words < 2 ^ 64 → ∀ use ∈ ty.sizeUses, use.IsSafe

theorem isSafe_of_mem_sizeUsesFrom
    {types : List Ty}
    (hsizes : ∀ ty ∈ types, ty.HasSafeSizes)
    (total : Nat)
    (hsmall : total + wordsOf types < 2 ^ 64) :
    ∀ use ∈ sizeUsesFrom total types, use.IsSafe := by
  induction types generalizing total with
  | nil => simp [sizeUsesFrom]
  | cons ty rest ih =>
      rw [List.forall_mem_cons] at hsizes
      rw [wordsOf] at hsmall
      have htotal : total + ty.words < 2 ^ 64 := by omega
      have hrest := ih hsizes.2 (total + ty.words) (by omega)
      rw [sizeUsesFrom, List.forall_mem_append, List.forall_mem_cons]
      exact ⟨hsizes.1 (by omega), htotal, hrest⟩

theorem hasSafeSizes
    (ty : Ty) :
    ty.HasSafeSizes := by
  induction ty using layoutInduction with
  | word ty hword => cases ty <;> simp_all [isWord, HasSafeSizes, sizeUses]
  | bytes => simp [HasSafeSizes, sizeUses]
  | string => simp [HasSafeSizes, sizeUses]
  | array item ih => simp [HasSafeSizes, sizeUses]
  | fixedArray item count ih =>
      intro hsmall
      rw [words] at hsmall
      have hitem := Nat.le_mul_of_pos_right item.words count.pos
      rw [sizeUses, List.forall_mem_append, List.forall_mem_singleton]
      exact ⟨ih (by omega), hsmall⟩
  | tuple items ih =>
      intro hsmall
      rw [words] at hsmall
      exact isSafe_of_mem_sizeUsesFrom ih 0 (by omega)

theorem isSafe_of_mem_advanceUses
    {ty : Ty} {position : Nat}
    (hsmall : position + ty.headSize < 2 ^ 64) :
    ∀ use ∈ ty.advanceUses position, use.IsSafe := by
  unfold advanceUses
  unfold headSize at hsmall
  by_cases hdynamic : ty.isDynamic = true
  · rw [if_pos hdynamic] at hsmall ⊢
    exact List.forall_mem_singleton.mpr hsmall
  · rw [if_neg hdynamic] at hsmall ⊢
    have hstride : 32 * ty.words < 2 ^ 64 := by omega
    rw [List.forall_mem_append, List.forall_mem_cons, List.forall_mem_singleton]
    exact ⟨hasSafeSizes ty (by omega), hstride, hsmall⟩

theorem isSafe_of_mem_strideUses
    {item : Ty}
    (hsmall : 32 * item.words < 2 ^ 64) :
    ∀ use ∈ item.strideUses, use.IsSafe := by
  unfold strideUses
  rw [List.forall_mem_append, List.forall_mem_singleton]
  exact ⟨hasSafeSizes item (by omega), hsmall⟩

theorem isSafe_of_mem_wordUses
    (ty : Ty) :
    ∀ use ∈ ty.wordUses, use.IsSafe := by
  cases ty with
  | int width =>
      have hpos := width.pos
      simp only [wordUses, Width.bits, List.forall_mem_cons, Use.IsSafe]
      exact ⟨by omega, by omega, by simp⟩
  | uint width =>
      simp only [wordUses, Width.bits, List.forall_mem_singleton, Use.IsSafe]
      omega
  | fixedBytes width => exact List.forall_mem_singleton.mpr width.le
  | _ => simp [wordUses, Use.IsSafe]

/-! ## Walks through what was read -/

/-- Whether walking through a type at a position where it was read is bounded. -/
def WalksInside (ty : Ty) : Prop :=
  ∀ data position, data.length < 2 ^ 62 → position ≤ data.length →
    ty.IsReadAt data position → (walk ty data position).IsBounded

theorem isBounded_walkItems
    {types : List Ty}
    (hwalks : ∀ ty ∈ types, ty.WalksInside)
    {data : Bytes} {position : Nat}
    (hshort : data.length < 2 ^ 62)
    (hposition : position ≤ data.length)
    (hread : AreReadAt types data position) :
    (walkItems types data position).IsBounded := by
  induction types generalizing position with
  | nil => exact Walk.isBounded_done
  | cons ty rest ih =>
      rw [List.forall_mem_cons] at hwalks
      obtain ⟨hfirst, hrest⟩ := hread.cons
      have hnext : (walk ty data position).result = .ok () →
          position + ty.headSize ≤ data.length := by
        rw [result_walk]
        exact hfirst.add_headSize_le hposition
      have hhead : ∀ use ∈ [Use.place .head position data.length], use.IsSafe :=
        List.forall_mem_singleton.mpr hposition
      have hlisted : ((walk ty data position).listed ty data position).IsBounded := by
        apply (Walk.isBounded_note hhead).andThen
        intro _ _
        apply (hwalks.1 data position hshort hposition hfirst).andThen
        intro _ hok
        have hend := hnext hok
        exact Walk.isBounded_note (isSafe_of_mem_advanceUses (by omega))
      apply hlisted.andThen
      intro _ hok
      rw [result_listed] at hok
      exact ih hwalks.2 (hnext hok) hrest

/-- The items of a static array lie where their readings do, one stride after the other. -/
theorem isBounded_each_item
    {item : Ty}
    (hwalks : item.WalksInside)
    (hstatic : item.isDynamic = false)
    {data : Bytes} {position : Nat}
    (hshort : data.length < 2 ^ 62)
    {count index : Nat}
    (hposition : position + index * (32 * words item) ≤ data.length)
    (hread : AreReadAt (List.replicate count item) data
      (position + index * (32 * words item))) :
    (Walk.each
      (fun index => (Walk.note (itemUses item data position index)).andThen fun _ =>
        walk item data (position + index * (32 * words item))) 1 count index).IsBounded := by
  induction count generalizing index with
  | zero => exact Walk.isBounded_done
  | succ count ih =>
      rw [List.replicate_succ] at hread
      obtain ⟨hfirst, hrest⟩ := hread.cons
      have hnext : position + (index + 1) * (32 * words item) =
          position + index * (32 * words item) + 32 * words item := by
        ring
      have hend := hfirst.add_words_le hstatic hposition
      rw [headSize, hstatic, if_neg (by simp), ← hnext] at hrest
      rw [← hnext] at hend
      have huses : ∀ use ∈ itemUses item data position index, use.IsSafe := by
        simp only [itemUses, List.forall_mem_cons, Use.IsSafe]
        exact ⟨by omega, by omega, hposition, by simp⟩
      have hitem := (Walk.isBounded_note huses).andThen fun _ _ =>
        hwalks data (position + index * (32 * words item)) hshort hposition hfirst
      exact hitem.andThen fun _ _ => ih hend hrest

theorem isBounded_walkWord
    (ty : Ty)
    {data : Bytes} {position : Nat}
    (hshort : data.length < 2 ^ 62)
    (hposition : position ≤ data.length) :
    (walkWord ty data position).IsBounded :=
  (Walk.isBounded_word hshort hposition).andThen fun _ _ =>
    Or.inl (isSafe_of_mem_wordUses ty)

theorem walksInside
    (ty : Ty) :
    ty.WalksInside := by
  induction ty using layoutInduction with
  | word ty hword =>
      intro data position hshort hposition _
      cases ty <;> first
        | exact isBounded_walkWord _ hshort hposition
        | exact Walk.isBounded_done
        | simp [isWord] at hword
  | bytes =>
      intro data position hshort hposition _
      exact Walk.isBounded_behind_tail hshort hposition fun _ _ _ => Walk.isBounded_done
  | string =>
      intro data position hshort hposition _
      exact Walk.isBounded_behind_tail hshort hposition fun _ _ _ => Walk.isBounded_done
  | array item ih =>
      intro data position hshort hposition hread
      rw [walk]
      apply Walk.isBounded_behind_tail hshort hposition
      intro tail htail hinner
      apply (Walk.isBounded_offset hinner (Nat.zero_le _)).andThen
      intro length hlength
      rw [Walk.result_offset] at hlength
      have hword := add_le_of_offsetAt hlength
      have hbase : ∀ use ∈ [Use.cut 32 tail.length, .place .base 32 tail.length],
          use.IsSafe := by
        simp only [List.forall_mem_cons, Use.IsSafe]
        exact ⟨by omega, by omega, by simp⟩
      apply (Walk.isBounded_note hbase).andThen
      intro _ _
      rw [each_listed_eq_walkItems]
      have hbehind : (tail.drop 32).length < 2 ^ 62 := by
        rw [List.length_drop]
        omega
      exact isBounded_walkItems (fun ty hmember => List.eq_of_mem_replicate hmember ▸ ih)
        hbehind (Nat.zero_le _) (hread.array_items htail hlength)
  | fixedArray item count ih =>
      intro data position hshort hposition hread
      rw [walk]
      split
      · rename_i hdynamic
        apply Walk.isBounded_behind_tail hshort hposition
        intro tail htail hinner
        rw [each_listed_eq_walkItems]
        exact isBounded_walkItems (fun ty hmember => List.eq_of_mem_replicate hmember ▸ ih)
          hinner (Nat.zero_le _) (hread.fixedArray_items_of_dynamic hdynamic htail)
      · rename_i hstatic
        rw [Bool.not_eq_true] at hstatic
        -- There is at least one item, so the words of the array bound the distance of two.
        have hend := hread.add_words_le hstatic hposition
        have hitem := Nat.le_mul_of_pos_right item.words count.pos
        rw [words] at hend
        apply (Walk.isBounded_note (isSafe_of_mem_strideUses (by omega))).andThen
        intro _ _
        have hitems := hread.fixedArray_items_of_static hstatic
        have hfirst : position = position + 0 * (32 * words item) := by simp
        exact isBounded_each_item ih hstatic hshort (hfirst ▸ hposition) (hfirst ▸ hitems)
  | tuple items ih =>
      intro data position hshort hposition hread
      rw [walk]
      split
      · rename_i hdynamic
        apply Walk.isBounded_behind_tail hshort hposition
        intro tail htail hinner
        exact isBounded_walkItems ih hinner (Nat.zero_le _)
          (hread.tuple_items_of_dynamic hdynamic htail)
      · rename_i hstatic
        rw [Bool.not_eq_true] at hstatic
        have hbase : ∀ use ∈ [Use.place .base position data.length], use.IsSafe :=
          List.forall_mem_singleton.mpr hposition
        apply (Walk.isBounded_note hbase).andThen
        intro _ _
        have hless : (data.drop position).length < 2 ^ 62 := by
          rw [List.length_drop]
          omega
        exact isBounded_walkItems ih hless (Nat.zero_le _) (hread.tuple_items_of_static hstatic)

/-! ## The check of a parameter list -/

section Parameters

variable {types : List Ty} {data : Bytes} {values : List Value}

theorem isBounded_walkParams
    (hshort : data.length < 2 ^ 62)
    (hread : readParams types data = .ok values) :
    (walkParams types data).IsBounded :=
  isBounded_walkItems (fun ty _ => walksInside ty) hshort (Nat.zero_le _)
    (areReadAt_of_readParams hread)

/-- The check of a list that was read uses no number of more than 64 bits, takes no bytes
that are not there, and goes to no position behind its bytes; only where nothing was read,
since no type carries information, may it end with an offset that leads there. -/
theorem walkParams_stays_inside
    (hshort : data.length < 2 ^ 62)
    (hread : readParams types data = .ok values) :
    (walkParams types data).result = checkParams types data ∧
      ((∀ use ∈ (walkParams types data).uses, use.IsSafe) ∨
        allEmpty types = true ∧
          ∃ before offset length,
            (walkParams types data).uses = before ++ [.place .tail offset length] ∧
              (∀ use ∈ before, use.IsSafe) ∧ length < offset ∧
              checkParams types data = .error (.missing offset)) := by
  have hresult : (walkParams types data).result = checkParams types data :=
    result_walkItems types data 0
  refine ⟨hresult, ?_⟩
  rcases isBounded_walkParams hshort hread with
    hsafe | ⟨before, offset, length, huses, hbefore, hbeyond, hrefused⟩
  · exact Or.inl hsafe
  · rw [hresult] at hrefused
    cases hempty : allEmpty types with
    | true => exact Or.inr ⟨rfl, before, offset, length, huses, hbefore, hbeyond, hrefused⟩
    | false => exact absurd hrefused (checkParams_ne_missing hempty hread offset)

end Parameters

/-! An offset leads into the head, where the numbers of the static array are also the length
and the item of the other array; the last is gone past there without being looked at. -/

def sharedTypes : List Ty :=
  [.array (.tuple [.bool, .function]), .fixedArray (.uint .byte) ⟨4, by decide, by decide⟩]

def sharedData : Bytes :=
  Part.word 64 ++ Part.word 7 ++ Part.word 1 ++ Part.word 1 ++ Part.word 0

theorem walkParams_stays_inside_shared :
    sharedData.length < 2 ^ 62 ∧
      readParams sharedTypes sharedData =
        .ok [.array [.tuple [.bool true, .function (.zero 24)]],
          .fixedArray [.uint 7 8, .uint 1 8, .uint 1 8, .uint 0 8]] ∧
      ∀ use ∈ (walkParams sharedTypes sharedData).uses, use.IsSafe := by
  have hshort : sharedData.length < 2 ^ 62 := by
    decide +kernel
  have hread : readParams sharedTypes sharedData =
      .ok [.array [.tuple [.bool true, .function (.zero 24)]],
        .fixedArray [.uint 7 8, .uint 1 8, .uint 1 8, .uint 0 8]] := by
    cbv
  rcases (walkParams_stays_inside hshort hread).2 with hsafe | ⟨hempty, -⟩
  · exact ⟨hshort, hread, hsafe⟩
  · cases hempty

/-- An array of empty tuples is not read, and its offset may lead beyond the data. -/
theorem walkParams_leaves_the_data :
    (Part.word 33).length < 2 ^ 62 ∧
      readParams [.array (.tuple [])] (Part.word 33) = .ok [] ∧
      ∃ use ∈ (walkParams [.array (.tuple [])] (Part.word 33)).uses,
        use = .place .tail 33 (Part.word 33).length ∧ ¬ use.IsSafe := by
  have hlength : (Part.word 33).length = 32 := by
    decide +kernel
  refine ⟨by omega, rfl, .place .tail 33 (Part.word 33).length, ?_, rfl, ?_⟩
  · decide +kernel
  · rw [hlength]
    simp [Use.IsSafe]

end Ty
end Abi
end MintWatch
