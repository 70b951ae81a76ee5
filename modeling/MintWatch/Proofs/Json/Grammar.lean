import Mathlib
import MintWatch.Proofs.Json.Members
import MintWatch.Proofs.Json.Scalars
/-!
# The grammar of JSON texts

What is written for a value with arrays and objects inside each other is stated by recursion
on how deep they may go.  Items stand between commas, with white space around each of them.
A reader of items is one that agrees with a relation in both directions; from such a reader
of the items come those of arrays and objects, and by induction on the depth that of values.
So a text is read exactly if something is written in it, and as what is written in it.
-/

namespace MintWatch
namespace Json

def IsBlank (chars : List Char) : Prop :=
  ∀ c ∈ chars, isSpace c = true

/-- Whether characters begin with one that is neither white space nor a closing bracket. -/
def StartsValue (chars : List Char) : Prop :=
  ∃ c more, chars = c :: more ∧ isSpace c = false ∧ c ≠ ']' ∧ c ≠ '}'

theorem skipSpace_append
    {blank more : List Char}
    (hblank : IsBlank blank)
    (hstop : ∀ c ∈ more.head?, isSpace c = false) :
    skipSpace (blank ++ more) = more :=
  dropWhile_append_of_stop hblank hstop

theorem exists_blank
    (chars : List Char) :
    ∃ blank, IsBlank blank ∧ chars = blank ++ skipSpace chars :=
  exists_run isSpace chars

theorem skipSpace_skipSpace
    (chars : List Char) :
    skipSpace (skipSpace chars) = skipSpace chars :=
  List.dropWhile_idempotent isSpace chars

theorem StartsValue.append
    {chars : List Char}
    (hstarts : StartsValue chars)
    (rest : List Char) :
    StartsValue (chars ++ rest) := by
  obtain ⟨c, more, rfl, hc⟩ := hstarts
  exact ⟨c, more ++ rest, rfl, hc⟩

theorem StartsValue.stop
    {chars : List Char}
    (hstarts : StartsValue chars) :
    ∀ c ∈ chars.head?, isSpace c = false := by
  obtain ⟨c, more, rfl, hspace, _⟩ := hstarts
  exact forall_head?_cons.mpr hspace

theorem EndsValue.of_blank
    {blank more : List Char} {c : Char}
    (hblank : IsBlank blank)
    (hc : c = ',' ∨ c = ']' ∨ c = '}') :
    EndsValue (blank ++ c :: more) := by
  cases blank with
  | nil => exact forall_head?_cons.mpr (.inr hc)
  | cons space blank => exact forall_head?_cons.mpr (.inl (hblank space List.mem_cons_self))

theorem EndsValue.of_isBlank
    {blank : List Char}
    (hblank : IsBlank blank) :
    EndsValue blank :=
  fun c hc => .inl (hblank c (List.mem_of_mem_head? hc))

/-! ## Items with commas between them -/

section Items

variable {α : Type} {item : List Char → Option (α × List Char)} {is : List Char → α → Prop}

/-- A reader that takes what a relation describes, if something follows that ends it. -/
structure Reads (item : List Char → Option (α × List Char)) (is : List Char → α → Prop) :
    Prop where
  starts : ∀ {chars value}, is chars value → StartsValue chars
  complete : ∀ {chars rest value}, is chars value → EndsValue rest →
    item (chars ++ rest) = some (value, rest)
  sound : ∀ {chars rest value}, item chars = some (value, rest) →
    ∃ front, is front value ∧ chars = front ++ rest

/-- Whether characters are those of an item with white space around them. -/
def IsPadded (is : List Char → α → Prop) (chars : List Char) (value : α) : Prop :=
  ∃ before front after, IsBlank before ∧ is front value ∧ IsBlank after ∧
    chars = before ++ (front ++ after)

/-- Whether characters are white space alone, or items with commas between them. -/
def AreListed (is : List Char → α → Prop) (chars : List Char) (values : List α) : Prop :=
  IsBlank chars ∧ values = [] ∨
    ∃ parts, parts ≠ [] ∧ List.Forall₂ (IsPadded is) parts values ∧
      chars = List.intercalate [','] parts

variable {close : Char} {chars rest : List Char} {values : List α} {value : α} {limit : Nat}

/-- What is read first, and what stands behind it. -/
theorem readItems_of_isPadded
    (hreads : Reads item is)
    (hpadded : IsPadded is chars value)
    {c : Char}
    (hc : c = ',' ∨ c = ']' ∨ c = '}') :
    readItems item close (limit + 1) (chars ++ c :: rest) =
      if c = close then some ([value], rest)
      else if c = ',' then
        (readItems item close limit rest).map fun read => (value :: read.1, read.2)
      else none := by
  obtain ⟨before, front, after, hbefore, hfront, hafter, rfl⟩ := hpadded
  have hskip : skipSpace (before ++ (front ++ after) ++ c :: rest) =
      front ++ (after ++ c :: rest) := by
    rw [List.append_assoc, List.append_assoc]
    exact skipSpace_append hbefore ((hreads.starts hfront).append _).stop
  have hstop : ∀ head ∈ (c :: rest).head?, isSpace head = false := by
    rw [forall_head?_cons]
    rcases hc with rfl | rfl | rfl <;> decide
  rw [readItems, hskip, hreads.complete hfront (.of_blank hafter hc)]
  simp only [skipSpace_append hafter hstop]

theorem readItems_append
    {parts : List (List Char)}
    (hreads : Reads item is)
    (hclose : close = ']' ∨ close = '}')
    (hparts : List.Forall₂ (IsPadded is) parts values)
    (hsome : parts ≠ [])
    (hlimit : parts.length ≤ limit) :
    readItems item close limit (List.intercalate [','] parts ++ close :: rest) =
      some (values, rest) := by
  induction hparts generalizing limit with
  | nil => exact absurd rfl hsome
  | @cons part value others _ hpart hothers ih =>
      obtain ⟨limit, rfl⟩ : ∃ fewer, limit = fewer + 1 := ⟨limit - 1, by simp at hlimit; omega⟩
      cases others with
      | nil =>
          cases hothers
          rw [List.intercalate_singleton, readItems_of_isPadded hreads hpart (.inr hclose),
            if_pos rfl]
      | cons next others =>
          have hcomma : ',' ≠ close := by rcases hclose with rfl | rfl <;> decide
          rw [List.intercalate_cons_cons, List.append_assoc, List.append_assoc,
            List.singleton_append, readItems_of_isPadded hreads hpart (.inl rfl),
            if_neg hcomma, if_pos rfl, ih (List.cons_ne_nil _ _) (by simpa using hlimit)]
          rfl

theorem exists_parts_of_readItems
    (hreads : Reads item is)
    (hread : readItems item close limit chars = some (values, rest)) :
    ∃ parts, parts ≠ [] ∧ List.Forall₂ (IsPadded is) parts values ∧
      chars = List.intercalate [','] parts ++ close :: rest := by
  induction limit generalizing chars values with
  | zero => cases hread
  | succ limit ih =>
      unfold readItems at hread
      split at hread
      · cases hread
      · next first more hfirst =>
        obtain ⟨before, hbefore, hchars⟩ := exists_blank chars
        obtain ⟨front, hfront, hskip⟩ := hreads.sound hfirst
        obtain ⟨after, hafter, hmore⟩ := exists_blank more
        split at hread
        · cases hread
        · next c tail hnext =>
          have hpadded : IsPadded is (before ++ (front ++ after)) first :=
            ⟨before, front, after, hbefore, hfront, hafter, rfl⟩
          have hsplit : chars = before ++ (front ++ after) ++ c :: tail := by
            rw [hchars, hskip, hmore, hnext]
            simp only [List.append_assoc]
          split at hread
          · next hclose =>
            cases hread
            refine ⟨[_], List.cons_ne_nil _ _, .cons hpadded .nil, ?_⟩
            rw [List.intercalate_singleton, hsplit, hclose]
          · split at hread
            · next hcomma =>
              obtain ⟨⟨others, _⟩, hothers, hsame⟩ := Option.map_eq_some_iff.mp hread
              obtain ⟨rfl, rfl⟩ := Prod.mk.inj hsame
              obtain ⟨parts, hsome, hparts, rfl⟩ := ih hothers
              obtain ⟨next, parts, rfl⟩ := List.exists_cons_of_ne_nil hsome
              refine ⟨_ :: next :: parts, List.cons_ne_nil _ _, .cons hpadded hparts, ?_⟩
              rw [List.intercalate_cons_cons, hsplit, hcomma]
              simp only [List.append_assoc, List.cons_append, List.nil_append]
            · cases hread

theorem IsPadded.length_pos
    (hreads : Reads item is)
    (hpadded : IsPadded is chars value) :
    0 < chars.length := by
  obtain ⟨before, front, after, _, hfront, _, rfl⟩ := hpadded
  obtain ⟨c, more, rfl, _⟩ := hreads.starts hfront
  simp only [List.length_append, List.length_cons]
  omega

/-- Every item has a character, so there are no more items than characters. -/
theorem length_le_intercalate
    {parts : List (List Char)}
    (hreads : Reads item is)
    (hparts : List.Forall₂ (IsPadded is) parts values) :
    parts.length ≤ (List.intercalate [','] parts).length := by
  induction hparts with
  | nil => exact Nat.zero_le _
  | @cons part _ others _ hpart _ ih =>
      have hpos := hpart.length_pos hreads
      cases others with
      | nil =>
          rw [List.intercalate_singleton]
          exact hpos
      | cons next others =>
          rw [List.intercalate_cons_cons]
          simp only [List.length_append, List.length_cons] at ih ⊢
          omega

theorem skipSpace_of_isPadded
    (hreads : Reads item is)
    (hpadded : IsPadded is chars value)
    (rest : List Char) :
    ∃ c more, skipSpace (chars ++ rest) = c :: more ∧ c ≠ ']' ∧ c ≠ '}' := by
  obtain ⟨before, front, after, hbefore, hfront, _, rfl⟩ := hpadded
  have hstarts := (hreads.starts hfront).append (after ++ rest)
  have hskip : skipSpace (before ++ (front ++ after) ++ rest) = front ++ (after ++ rest) := by
    rw [List.append_assoc, List.append_assoc, skipSpace_append hbefore hstarts.stop]
  obtain ⟨c, more, hfollow, _, hc⟩ := hstarts
  exact ⟨c, more, hskip.trans hfollow, hc⟩

theorem skipSpace_of_parts
    {parts : List (List Char)}
    (hreads : Reads item is)
    (hparts : List.Forall₂ (IsPadded is) parts values)
    (hsome : parts ≠ [])
    (rest : List Char) :
    ∃ c more, skipSpace (List.intercalate [','] parts ++ rest) = c :: more ∧
      c ≠ ']' ∧ c ≠ '}' := by
  cases hparts with
  | nil => exact absurd rfl hsome
  | @cons part _ others _ hpart _ =>
      cases others with
      | nil =>
          rw [List.intercalate_singleton]
          exact skipSpace_of_isPadded hreads hpart rest
      | cons next others =>
          rw [List.intercalate_cons_cons, List.append_assoc, List.append_assoc]
          exact skipSpace_of_isPadded hreads hpart _

theorem readItems_skipSpace
    (limit : Nat) (chars : List Char) :
    readItems item close limit (skipSpace chars) = readItems item close limit chars := by
  cases limit with
  | zero => rfl
  | succ limit => rw [readItems, readItems, skipSpace_skipSpace]

theorem readSequence_append
    (hreads : Reads item is)
    (hclose : close = ']' ∨ close = '}')
    (hlisted : AreListed is chars values)
    (rest : List Char) :
    readSequence item close (chars ++ close :: rest) = some (values, rest) := by
  rcases hlisted with ⟨hblank, rfl⟩ | ⟨parts, hsome, hparts, rfl⟩
  · have hstop : ∀ c ∈ (close :: rest).head?, isSpace c = false := by
      rw [forall_head?_cons]
      rcases hclose with rfl | rfl <;> decide
    rw [readSequence, skipSpace_append hblank hstop]
    simp
  · obtain ⟨c, more, hskip, hbracket, hbrace⟩ :=
      skipSpace_of_parts hreads hparts hsome (close :: rest)
    have hopen : c ≠ close := by
      rcases hclose with rfl | rfl
      · exact hbracket
      · exact hbrace
    have hlimit : parts.length ≤ (List.intercalate [','] parts ++ close :: rest).length := by
      rw [List.length_append]
      exact (length_le_intercalate hreads hparts).trans (Nat.le_add_right ..)
    rw [readSequence, hskip]
    simp only [hopen, if_false]
    rw [← hskip, readItems_skipSpace, readItems_append hreads hclose hparts hsome hlimit]

theorem exists_inside_of_readSequence
    (hreads : Reads item is)
    (hread : readSequence item close chars = some (values, rest)) :
    ∃ inside, AreListed is inside values ∧ chars = inside ++ close :: rest := by
  obtain ⟨blank, hblank, hchars⟩ := exists_blank chars
  unfold readSequence at hread
  split at hread
  · cases hread
  · next c more hskip =>
    split at hread
    · next hclose =>
      cases hread
      exact ⟨blank, .inl ⟨hblank, rfl⟩, by rw [hchars, hskip, hclose]⟩
    · rw [← hskip, readItems_skipSpace] at hread
      obtain ⟨parts, hsome, hparts, hinside⟩ := exists_parts_of_readItems hreads hread
      exact ⟨_, .inr ⟨parts, hsome, hparts, rfl⟩, hinside⟩

end Items

/-! ## Values -/

/-- Whether characters are a key, a colon and a value. -/
inductive IsMember (is : List Char → Json → Prop) : List Char → String × Json → Prop
  | intro {inside key before after front : List Char} {value : Json}
      (hkey : AreInside inside key) (hbefore : IsBlank before) (hafter : IsBlank after)
      (hvalue : is front value) :
      IsMember is ('"' :: (inside ++ '"' :: (before ++ ':' :: (after ++ front))))
        (String.ofList key, value)

/-- What is written for a value if a relation says what is written for the values inside it. -/
inductive IsNested (is : List Char → Json → Prop) : List Char → Json → Prop
  | scalar {chars : List Char} {value : Json} (hscalar : IsScalar chars value) :
      IsNested is chars value
  | array {inside : List Char} {items : List Json} (hitems : AreListed is inside items) :
      IsNested is ('[' :: (inside ++ [']'])) (.array items)
  | object {inside : List Char} {members : List (String × Json)}
      (hmembers : AreListed (IsMember is) inside members) :
      IsNested is ('{' :: (inside ++ ['}'])) (.object (lastOfEach members))

/-- What is written for a value with at most so many arrays and objects around any other. -/
def IsWritten : Nat → List Char → Json → Prop
  | 0 => IsScalar
  | depth + 1 => IsNested (IsWritten depth)

theorem IsScalar.starts
    {chars : List Char} {value : Json}
    (hscalar : IsScalar chars value) :
    ∃ c more, chars = c :: more ∧ isSpace c = false ∧ c ∉ ['[', ']', '{', '}'] := by
  cases hscalar with
  | null => exact ⟨_, _, rfl, by decide⟩
  | boolTrue => exact ⟨_, _, rfl, by decide⟩
  | boolFalse => exact ⟨_, _, rfl, by decide⟩
  | string _ => exact ⟨_, _, rfl, by decide⟩
  | negative _ => exact ⟨_, _, rfl, by decide⟩
  | number hmagnitude =>
      obtain ⟨c, more, rfl, hdigit⟩ := hmagnitude.starts
      refine ⟨c, more, rfl, ?_, ?_⟩
      · by_contra hspace
        simp only [isSpace, Bool.not_eq_false, Bool.or_eq_true, decide_eq_true_eq] at hspace
        rcases hspace with ((rfl | rfl) | rfl) | rfl <;> cases hdigit
      · intro hbracket
        simp only [List.mem_cons, List.not_mem_nil, or_false] at hbracket
        rcases hbracket with rfl | rfl | rfl | rfl <;> cases hdigit

theorem reads_scalar :
    Reads readScalar IsScalar where
  starts hscalar := by
    obtain ⟨c, more, rfl, hspace, hbracket⟩ := hscalar.starts
    exact ⟨c, more, rfl, hspace, by rintro rfl; simp at hbracket, by rintro rfl; simp at hbracket⟩
  complete := readScalar_append
  sound := exists_scalar_of_readScalar

section Nested

variable {read : List Char → Option (Json × List Char)} {is : List Char → Json → Prop}

theorem Reads.member
    (hreads : Reads read is) :
    Reads (readMember read) (IsMember is) where
  starts hmember := by
    cases hmember with
    | intro _ _ _ _ => exact ⟨_, _, rfl, by decide⟩
  complete := by
    intro chars rest member hmember hends
    cases hmember with
    | intro hkey hbefore hafter hvalue =>
        have hstop := ((hreads.starts hvalue).append rest).stop
        simp only [List.cons_append, List.append_assoc, readMember, readText_append hkey]
        rw [skipSpace_append hbefore (forall_head?_cons.mpr (by decide))]
        simp only [skipSpace_append hafter hstop, hreads.complete hvalue hends, Option.map_some]
  sound := by
    intro chars rest member hread
    unfold readMember at hread
    split at hread
    · next tail =>
      split at hread
      · cases hread
      · next key more htext =>
        obtain ⟨inside, hkey, rfl⟩ := exists_inside_of_readText htext
        obtain ⟨before, hbefore, hmore⟩ := exists_blank more
        split at hread
        · next behind hcolon =>
          obtain ⟨after, hafter, hbehind⟩ := exists_blank behind
          obtain ⟨⟨value, _⟩, hvalue, hsame⟩ := Option.map_eq_some_iff.mp hread
          obtain ⟨rfl, rfl⟩ := Prod.mk.inj hsame
          obtain ⟨front, hfront, hskip⟩ := hreads.sound hvalue
          refine ⟨_, .intro hkey hbefore hafter hfront, ?_⟩
          rw [hmore, hcolon, hbehind, hskip]
          simp only [List.append_assoc, List.cons_append]
        · cases hread
    · cases hread

theorem IsNested.starts
    {chars : List Char} {value : Json}
    (hnested : IsNested is chars value) :
    StartsValue chars := by
  cases hnested with
  | scalar hscalar => exact reads_scalar.starts hscalar
  | array _ => exact ⟨_, _, rfl, by decide⟩
  | object _ => exact ⟨_, _, rfl, by decide⟩

variable {depth : Nat} {chars rest : List Char} {value : Json}

theorem readValue_append
    (hreads : Reads (readValue depth) is)
    (hnested : IsNested is chars value)
    (hends : EndsValue rest) :
    readValue (depth + 1) (chars ++ rest) = some (value, rest) := by
  cases hnested with
  | scalar hscalar =>
      have hread := readScalar_append hscalar hends
      obtain ⟨c, more, rfl, _, hbracket⟩ := hscalar.starts
      unfold readValue
      split
      · next heq => cases heq; simp at hbracket
      · next heq => cases heq; simp at hbracket
      · exact hread
  | array hitems =>
      simp only [List.cons_append, List.append_assoc, List.nil_append, readValue,
        readSequence_append hreads (.inl rfl) hitems, Option.map_some]
  | object hmembers =>
      simp only [List.cons_append, List.append_assoc, List.nil_append, readValue,
        readSequence_append hreads.member (.inr rfl) hmembers, Option.map_some]

theorem exists_nested_of_readValue
    (hreads : Reads (readValue depth) is)
    (hread : readValue (depth + 1) chars = some (value, rest)) :
    ∃ front, IsNested is front value ∧ chars = front ++ rest := by
  unfold readValue at hread
  split at hread
  · obtain ⟨⟨items, _⟩, hitems, hsame⟩ := Option.map_eq_some_iff.mp hread
    obtain ⟨rfl, rfl⟩ := Prod.mk.inj hsame
    obtain ⟨inside, hinside, rfl⟩ := exists_inside_of_readSequence hreads hitems
    exact ⟨_, .array hinside, by simp⟩
  · obtain ⟨⟨members, _⟩, hmembers, hsame⟩ := Option.map_eq_some_iff.mp hread
    obtain ⟨rfl, rfl⟩ := Prod.mk.inj hsame
    obtain ⟨inside, hinside, rfl⟩ := exists_inside_of_readSequence hreads.member hmembers
    exact ⟨_, .object hinside, by simp⟩
  · obtain ⟨front, hfront, rfl⟩ := exists_scalar_of_readScalar hread
    exact ⟨front, .scalar hfront, rfl⟩

end Nested

theorem reads_value
    (depth : Nat) :
    Reads (readValue depth) (IsWritten depth) := by
  induction depth with
  | zero => exact reads_scalar
  | succ depth ih =>
      exact ⟨IsNested.starts, readValue_append ih, exists_nested_of_readValue ih⟩

/-- Whether a text is a value with white space around it. -/
def IsWrittenAs (text : String) (value : Json) : Prop :=
  IsPadded (IsWritten depthLimit) text.toList value

theorem read?_eq_some_iff
    {text : String} {value : Json} :
    read? text = some value ↔ IsWrittenAs text value := by
  have hreads := reads_value depthLimit
  unfold read? readWithin
  constructor
  · intro hread
    split at hread
    · next found rest hfound =>
      split at hread
      · next hrest =>
        obtain rfl := Option.some.inj hread
        obtain ⟨before, hbefore, hchars⟩ := exists_blank text.toList
        obtain ⟨front, hfront, hskip⟩ := hreads.sound hfound
        have hafter : IsBlank rest :=
          List.dropWhile_eq_nil_iff.mp (List.isEmpty_iff.mp hrest)
        exact ⟨before, front, rest, hbefore, hfront, hafter, hskip ▸ hchars⟩
      · cases hread
    · cases hread
  · rintro ⟨before, front, after, hbefore, hfront, hafter, htext⟩
    have hstop := ((hreads.starts hfront).append after).stop
    have hend : skipSpace after = [] := List.dropWhile_eq_nil_iff.mpr hafter
    rw [htext, skipSpace_append hbefore hstop, hreads.complete hfront (.of_isBlank hafter)]
    simp [hend]

theorem IsWrittenAs.haveDistinctKeys
    {text : String} {members : List (String × Json)}
    (hwritten : IsWrittenAs text (.object members)) :
    HaveDistinctKeys members := by
  obtain ⟨_, front, _, _, hfront, _, _⟩ := hwritten
  cases hfront with
  | scalar hscalar => cases hscalar
  | object _ => exact haveDistinctKeys_lastOfEach _

end Json
end MintWatch
