import Mathlib
import MintWatch.Abi.TypeGrammar
import MintWatch.Proofs.Lists
/-!
# The grammar of type texts

What spells a type form is stated as a relation, by recursion on the form, and the reader
of type texts is compared with it.  The reader takes from the front of a text what spells
the form that it returns; and what spells a form with few enough tuples inside each other
is read as that form, whatever stands behind it, as long as that ends a form.  So a whole
text is read as a form exactly if it spells that form.
-/

namespace MintWatch
namespace Abi

theorem Count.ofNat?_eq_some_iff
    {number : Nat} {count : Count} :
    Count.ofNat? number = some count ↔ number = count.val := by
  unfold Count.ofNat?
  constructor
  · intro hcount
    split at hcount
    · rw [← Option.some.inj hcount]
    · cases hcount
  · rintro rfl
    rw [dif_pos ⟨count.pos, count.lt⟩]

namespace TypeForm

/-! ## What spells a form -/

def IsName (chars : List Char) : Prop :=
  ∃ first rest, chars = first :: rest ∧ startsName first = true ∧
    ∀ c ∈ rest, continuesName c = true

def IsGap (chars : List Char) : Prop :=
  ∀ c ∈ chars, isGap c = true

/-- Whether characters are a name as a stem, alone or qualified by another. -/
def IsStem (name : String) (chars : List Char) : Prop :=
  IsName chars ∧ name = String.ofList chars ∨
    ∃ front back, IsName front ∧ (back = [] ∨ IsName back) ∧ chars = front ++ '.' :: back ∧
      name = "uint8"

def IsOpening (chars : List Char) : Prop :=
  chars = ['('] ∨ chars = ['t', 'u', 'p', 'l', 'e', '(']

def IsSize (digits : List Char) (count : Count) : Prop :=
  digits ≠ [] ∧ (∀ c ∈ digits, c.isDigit = true) ∧ Text.decimal digits = count.val

mutual

/-- Whether characters spell a form. -/
def IsSpelledBy : TypeForm → List Char → Prop
  | .named name, chars => IsStem name chars
  | .tuple items, chars =>
    ∃ opening gap inner, IsOpening opening ∧ IsGap gap ∧ AreSpelledBy items inner ∧
      chars = opening ++ (gap ++ inner)
  | .array item, chars => ∃ stem, IsSpelledBy item stem ∧ chars = stem ++ ['[', ']']
  | .fixedArray item count, chars =>
    ∃ stem digits, IsSpelledBy item stem ∧ IsSize digits count ∧
      chars = stem ++ '[' :: (digits ++ [']'])

/--
Whether characters spell the items of a tuple and its closing parenthesis.  A comma that
stands after the last item is followed by no items.
-/
def AreSpelledBy : List TypeForm → List Char → Prop
  | [], chars => chars = [')']
  | item :: others, chars =>
    ∃ first gap, IsSpelledBy item first ∧ IsGap gap ∧
      (others = [] ∧ chars = first ++ (gap ++ [')']) ∨
        ∃ inner, AreSpelledBy others inner ∧ chars = first ++ ',' :: (gap ++ inner))

end

mutual

/-- The number of tuples that are open inside each other in a form. -/
def depth : TypeForm → Nat
  | .named _ => 0
  | .tuple items => 1 + deepest items
  | .array item => depth item
  | .fixedArray item _ => depth item

def deepest : List TypeForm → Nat
  | [] => 0
  | form :: rest => max (depth form) (deepest rest)

end

theorem formInduction
    {motive : TypeForm → Prop}
    (named : ∀ name, motive (.named name))
    (tuple : ∀ items, (∀ item ∈ items, motive item) → motive (.tuple items))
    (array : ∀ item, motive item → motive (.array item))
    (fixedArray : ∀ item count, motive item → motive (.fixedArray item count))
    (form : TypeForm) :
    motive form :=
  @TypeForm.rec motive (fun items => ∀ item ∈ items, motive item)
    named tuple array fixedArray
    (fun _ hmember => absurd hmember List.not_mem_nil)
    (fun _ _ hfirst hrest => List.forall_mem_cons.mpr ⟨hfirst, hrest⟩) form

theorem deepest_le_iff
    (forms : List TypeForm) (limit : Nat) :
    deepest forms ≤ limit ↔ ∀ form ∈ forms, form.depth ≤ limit :=
  forall_iff_of_cons (fun forms => deepest forms ≤ limit) (Nat.zero_le limit)
    (fun form rest => by rw [deepest, Nat.max_le]) forms

/-! ## White space -/

/-- A character of a kind that white space is not of. -/
theorem isGap_eq_false_of_among
    {among : Char → Bool} {c : Char}
    (hblanks : among ' ' = false ∧ among '\t' = false)
    (hc : among c = true) :
    isGap c = false := by
  by_contra hgap
  simp only [isGap, Bool.not_eq_false, Bool.or_eq_true, decide_eq_true_eq] at hgap
  rcases hgap with rfl | rfl
  · rw [hblanks.1] at hc
    cases hc
  · rw [hblanks.2] at hc
    cases hc

theorem skipGap_append
    {gap more : List Char}
    (hgap : IsGap gap)
    (hstop : ∀ c ∈ more.head?, isGap c = false) :
    skipGap (gap ++ more) = more :=
  dropWhile_append_of_stop hgap hstop

theorem exists_gap
    (chars : List Char) :
    ∃ gap, IsGap gap ∧ chars = gap ++ skipGap chars :=
  exists_run isGap chars

/-! ## Names -/

/-- Whether what follows a stem can be neither a part of it nor of the tuple it would open. -/
def EndsStem (more : List Char) : Prop :=
  ∀ c ∈ more.head?, c = '[' ∨ c = ',' ∨ c = ')' ∨ isGap c = true

theorem EndsStem.not_continuesName
    {more : List Char}
    (hends : EndsStem more) :
    ∀ c ∈ more.head?, continuesName c = false := by
  intro c hc
  rcases hends c hc with rfl | rfl | rfl | hgap
  · decide
  · decide
  · decide
  · by_contra hcontinues
    rw [Bool.not_eq_false] at hcontinues
    rw [isGap_eq_false_of_among (by decide) hcontinues] at hgap
    cases hgap

theorem readName_sound
    {chars name rest : List Char}
    (hread : readName chars = some (name, rest)) :
    IsName name ∧ chars = name ++ rest := by
  cases chars with
  | nil => cases hread
  | cons c chars =>
      rw [readName] at hread
      split at hread
      · rename_i hstarts
        simp only [Option.some.injEq, Prod.mk.injEq] at hread
        rw [← hread.1, ← hread.2]
        constructor
        · exact ⟨c, _, rfl, hstarts, fun _ hmember => List.mem_takeWhile_imp hmember⟩
        · simp [List.takeWhile_append_dropWhile]
      · cases hread

theorem readName_append
    {name more : List Char}
    (hname : IsName name)
    (hends : ∀ c ∈ more.head?, continuesName c = false) :
    readName (name ++ more) = some (name, more) := by
  obtain ⟨first, rest, rfl, hstarts, hrest⟩ := hname
  rw [List.cons_append, readName, if_pos hstarts, takeWhile_append_of_stop hrest hends,
    dropWhile_append_of_stop hrest hends]

theorem continuesName_of_startsName
    {c : Char}
    (hstarts : startsName c = true) :
    continuesName c = true := by
  unfold startsName at hstarts
  unfold continuesName Char.isAlphanum
  simp only [Bool.or_eq_true, decide_eq_true_eq] at hstarts ⊢
  tauto

theorem readName_eq_none
    {chars : List Char}
    (hends : ∀ c ∈ chars.head?, continuesName c = false) :
    readName chars = none := by
  cases chars with
  | nil => rfl
  | cons c rest =>
      have hstarts : ¬ startsName c = true := by
        intro hstarts
        have hcontinues := continuesName_of_startsName hstarts
        rw [hends c rfl] at hcontinues
        cases hcontinues
      rw [readName, if_neg hstarts]

theorem readStem_sound
    {chars rest : List Char} {form : TypeForm}
    (hread : readStem chars = some (form, rest)) :
    ∃ name text, form = .named name ∧ IsStem name text ∧ chars = text ++ rest := by
  unfold readStem at hread
  split at hread
  · cases hread
  · rename_i front behind hfront
    obtain ⟨hname, rfl⟩ := readName_sound hfront
    split at hread
    · rename_i back behind' hback
      obtain ⟨hqualifier, rfl⟩ := readName_sound hback
      simp only [Option.some.injEq, Prod.mk.injEq] at hread
      rw [← hread.1, ← hread.2]
      exact ⟨"uint8", front ++ '.' :: back, rfl,
        Or.inr ⟨front, back, hname, Or.inr hqualifier, rfl, rfl⟩, by simp⟩
    · simp only [Option.some.injEq, Prod.mk.injEq] at hread
      rw [← hread.1, ← hread.2]
      exact ⟨"uint8", front ++ ['.'], rfl,
        Or.inr ⟨front, [], hname, Or.inl rfl, rfl, rfl⟩, by simp⟩
  · rename_i name behind _ hfront
    obtain ⟨hname, rfl⟩ := readName_sound hfront
    simp only [Option.some.injEq, Prod.mk.injEq] at hread
    rw [← hread.1, ← hread.2]
    exact ⟨String.ofList name, name, rfl, Or.inl ⟨hname, rfl⟩, rfl⟩

theorem readStem_append
    {name : String} {text more : List Char}
    (hstem : IsStem name text)
    (hends : EndsStem more) :
    readStem (text ++ more) = some (.named name, more) := by
  have hmore := hends.not_continuesName
  unfold readStem
  rcases hstem with ⟨hname, rfl⟩ | ⟨front, back, hfront, hback, rfl, rfl⟩
  · rw [readName_append hname hmore]
    split
    · cases ‹_›
    · -- What follows ends a stem, so it is no dot.
      rename_i behind hdot
      simp only [Option.some.injEq, Prod.mk.injEq] at hdot
      have hnone := hends '.' (by simp [hdot.2])
      simp [isGap] at hnone
    · simp_all
  · rw [List.append_assoc, List.cons_append, readName_append hfront (by simp [continuesName])]
    rcases hback with rfl | hback
    · simp [readName_eq_none hmore]
    · simp [readName_append hback hmore]

/-! ## Array suffixes -/

theorem readSuffixes_of_not_bracket
    {limit : Nat} {form : TypeForm} {more : List Char}
    (hmore : ∀ c ∈ more.head?, c ≠ '[') :
    readSuffixes limit form more = some (form, more) := by
  apply readSuffixes.eq_2
  rintro _ rest - rfl
  exact hmore '[' rfl rfl

theorem readSuffixes_array
    (limit : Nat) (form : TypeForm) (more : List Char) :
    readSuffixes (limit + 1) form ('[' :: ']' :: more) = readSuffixes limit (.array form) more := by
  rw [readSuffixes]
  simp [show ']'.isDigit = false by decide]

theorem readSuffixes_fixedArray
    {digits : List Char} {count : Count}
    (limit : Nat) (form : TypeForm) (more : List Char)
    (hsize : IsSize digits count) :
    readSuffixes (limit + 1) form ('[' :: (digits ++ ']' :: more)) =
      readSuffixes limit (.fixedArray form count) more := by
  obtain ⟨hsome, hdigits, hvalue⟩ := hsize
  have hstop : ∀ c ∈ (']' :: more).head?, c.isDigit = false := by
    simp [show ']'.isDigit = false by decide]
  have hcount : Count.ofNat? (Text.decimal digits) = some count :=
    Count.ofNat?_eq_some_iff.mpr hvalue
  rw [readSuffixes, takeWhile_append_of_stop hdigits hstop, dropWhile_append_of_stop hdigits hstop]
  cases digits with
  | nil => exact absurd rfl hsome
  | cons c rest => simp only [hcount]

theorem readSuffixes_sound
    {limit : Nat} {stem form : TypeForm} {text chars rest : List Char}
    (hstem : stem.IsSpelledBy text)
    (hread : readSuffixes limit stem chars = some (form, rest)) :
    ∃ suffix, chars = suffix ++ rest ∧ form.IsSpelledBy (text ++ suffix) ∧
      form.depth = stem.depth := by
  induction limit generalizing stem text chars with
  | zero =>
      rw [readSuffixes.eq_2 _ _ _ (by simp)] at hread
      simp only [Option.some.injEq, Prod.mk.injEq] at hread
      rw [← hread.1, ← hread.2]
      exact ⟨[], rfl, by rwa [List.append_nil], rfl⟩
  | succ limit ih =>
      by_cases hbracket : ∀ c ∈ chars.head?, c ≠ '['
      · rw [readSuffixes_of_not_bracket hbracket] at hread
        simp only [Option.some.injEq, Prod.mk.injEq] at hread
        rw [← hread.1, ← hread.2]
        exact ⟨[], rfl, by rwa [List.append_nil], rfl⟩
      · obtain ⟨inner, rfl⟩ : ∃ inner, chars = '[' :: inner := by
          cases chars with
          | nil => simp at hbracket
          | cons c inner => exact ⟨inner, by simpa using hbracket⟩
        have hinner := (List.takeWhile_append_dropWhile (p := Char.isDigit) (l := inner)).symm
        rw [readSuffixes] at hread
        split at hread
        · rename_i more hdigits hmore
          rw [hdigits, hmore, List.nil_append] at hinner
          have harray : IsSpelledBy (.array stem) (text ++ ['[', ']']) := ⟨text, hstem, rfl⟩
          obtain ⟨suffix, hsuffix, hform, hdepth⟩ := ih harray hread
          refine ⟨'[' :: ']' :: suffix, by simp [hinner, hsuffix], ?_, hdepth⟩
          simpa using hform
        · rename_i more hmore hsome
          split at hread
          · rename_i count hcount
            have hsize : IsSize (inner.takeWhile Char.isDigit) count :=
              ⟨hsome, fun _ hmember => List.mem_takeWhile_imp hmember,
                Count.ofNat?_eq_some_iff.mp hcount⟩
            rw [hmore] at hinner
            have harray : IsSpelledBy (.fixedArray stem count)
                (text ++ '[' :: (inner.takeWhile Char.isDigit ++ [']'])) :=
              ⟨text, _, hstem, hsize, rfl⟩
            obtain ⟨suffix, hsuffix, hform, hdepth⟩ := ih harray hread
            refine ⟨'[' :: (inner.takeWhile Char.isDigit ++ ']' :: suffix), ?_, ?_, hdepth⟩
            · calc
                '[' :: inner =
                    '[' :: (inner.takeWhile Char.isDigit ++ ']' :: (suffix ++ rest)) := by
                  rw [← hsuffix, ← hinner]
                _ = _ := by simp
            · simpa using hform
          · cases hread
        · cases hread

/-! ## Items of a tuple -/

theorem exists_front_of_isSpelledBy
    {form : TypeForm} {text : List Char}
    (hspelled : form.IsSpelledBy text) :
    ∃ c rest, text = c :: rest ∧ (c = '(' ∨ startsName c = true) := by
  induction form using formInduction generalizing text with
  | named name =>
      rcases hspelled with ⟨⟨first, rest, rfl, hstarts, -⟩, -⟩ |
        ⟨_, back, ⟨first, rest, rfl, hstarts, -⟩, -, rfl, -⟩
      · exact ⟨first, rest, rfl, Or.inr hstarts⟩
      · exact ⟨first, rest ++ '.' :: back, rfl, Or.inr hstarts⟩
  | tuple items =>
      obtain ⟨_, gap, inner, rfl | rfl, -, -, rfl⟩ := hspelled
      · exact ⟨'(', gap ++ inner, rfl, Or.inl rfl⟩
      · exact ⟨'t', _, rfl, Or.inr (by decide)⟩
  | array item ih =>
      obtain ⟨stem, hstem, rfl⟩ := hspelled
      obtain ⟨c, rest, rfl, hfront⟩ := ih hstem
      exact ⟨c, rest ++ ['[', ']'], rfl, hfront⟩
  | fixedArray item count ih =>
      obtain ⟨stem, digits, hstem, -, rfl⟩ := hspelled
      obtain ⟨c, rest, rfl, hfront⟩ := ih hstem
      exact ⟨c, rest ++ '[' :: (digits ++ [']']), rfl, hfront⟩

theorem front_of_isSpelledBy
    {form : TypeForm} {text : List Char}
    (hspelled : form.IsSpelledBy text)
    (more : List Char) :
    ∀ c ∈ (text ++ more).head?, isGap c = false ∧ c ≠ ')' := by
  obtain ⟨first, rest, rfl, hfront⟩ := exists_front_of_isSpelledBy hspelled
  intro c hc
  obtain rfl : first = c := by simpa using hc
  rcases hfront with rfl | hstarts
  · decide
  · refine ⟨isGap_eq_false_of_among (by decide) hstarts, ?_⟩
    rintro rfl
    exact absurd hstarts (by decide)

theorem front_of_areSpelledBy
    {items : List TypeForm} {inner : List Char}
    (hspelled : AreSpelledBy items inner)
    (more : List Char) :
    ∀ c ∈ (inner ++ more).head?, isGap c = false ∧ (items ≠ [] → c ≠ ')') := by
  cases items with
  | nil =>
      rw [show inner = [')'] from hspelled]
      intro c hc
      obtain rfl : ')' = c := by simpa using hc
      simp [isGap]
  | cons item others =>
      obtain ⟨first, gap, hfirst, -, htail⟩ := hspelled
      have hfront : ∀ tail, ∀ c ∈ (first ++ tail).head?, isGap c = false ∧
          (item :: others ≠ [] → c ≠ ')') := by
        intro tail c hc
        have hboth := front_of_isSpelledBy hfirst tail c hc
        exact ⟨hboth.1, fun _ => hboth.2⟩
      rcases htail with ⟨-, rfl⟩ | ⟨rest, -, rfl⟩
      · rw [List.append_assoc]
        exact hfront _
      · rw [List.append_assoc]
        exact hfront _

theorem length_le_of_areSpelledBy
    {items : List TypeForm} {inner : List Char}
    (hspelled : AreSpelledBy items inner) :
    items.length ≤ inner.length := by
  induction items generalizing inner with
  | nil => exact Nat.zero_le _
  | cons item others ih =>
      obtain ⟨first, gap, -, -, ⟨rfl, rfl⟩ | ⟨rest, hrest, rfl⟩⟩ := hspelled
      · simp only [List.length_append, List.length_cons, List.length_nil]
        omega
      · have hlength := ih hrest
        simp only [List.length_append, List.length_cons]
        omega

/-- Whether a reader takes from a text what spells the form it returns. -/
def ReadsSpelled (read : List Char → Option (TypeForm × List Char)) (limit : Nat) : Prop :=
  ∀ chars form rest, read chars = some (form, rest) →
    ∃ text, chars = text ++ rest ∧ form.IsSpelledBy text ∧ form.depth ≤ limit

/-- Whether what follows a form can be no part of it. -/
def EndsForm (more : List Char) : Prop :=
  ∀ c ∈ more.head?, c = ',' ∨ c = ')' ∨ isGap c = true

theorem endsForm_nil : EndsForm [] := by
  simp [EndsForm]

theorem EndsForm.endsStem
    {more : List Char}
    (hends : EndsForm more) :
    EndsStem more :=
  fun c hc => Or.inr (hends c hc)

theorem EndsForm.not_bracket
    {more : List Char}
    (hends : EndsForm more) :
    ∀ c ∈ more.head?, c ≠ '[' := by
  intro c hc hbracket
  have hnone := hends c hc
  rw [hbracket] at hnone
  exact absurd hnone (by decide)

theorem exists_gap_parenthesis
    {chars rest : List Char}
    (hskip : skipGap chars = ')' :: rest) :
    ∃ gap, IsGap gap ∧ chars = (gap ++ [')']) ++ rest := by
  obtain ⟨gap, hgap, hchars⟩ := exists_gap chars
  rw [hskip] at hchars
  exact ⟨gap, hgap, by simp [hchars]⟩

theorem readItems_sound
    {read : List Char → Option (TypeForm × List Char)} {bound limit : Nat}
    {chars rest : List Char} {items : List TypeForm}
    (hsound : ReadsSpelled read bound)
    (hread : readItems read limit chars = some (items, rest)) :
    ∃ inner, chars = inner ++ rest ∧ AreSpelledBy items inner ∧ deepest items ≤ bound := by
  induction limit generalizing chars items with
  | zero => cases hread
  | succ limit ih =>
      rw [readItems] at hread
      split at hread
      · cases hread
      · rename_i first behind hfirst
        obtain ⟨text, rfl, hspelled, hdepth⟩ := hsound _ _ _ hfirst
        split at hread
        · -- The comma is the last.
          rename_i behind' hskip
          obtain ⟨gap, hgap, rfl⟩ := exists_gap_parenthesis hskip
          simp only [Option.some.injEq, Prod.mk.injEq] at hread
          rw [← hread.1, ← hread.2]
          refine ⟨text ++ ',' :: (gap ++ [')']), by simp, ⟨text, gap, hspelled, hgap,
            Or.inr ⟨[')'], rfl, rfl⟩⟩, by simpa [deepest] using hdepth⟩
        · obtain ⟨⟨others, last⟩, hothers, hpair⟩ := Option.map_eq_some_iff.mp hread
          simp only [Prod.mk.injEq] at hpair
          rw [hpair.2] at hothers
          obtain ⟨inner, hinner, hrest, hbound⟩ := ih hothers
          obtain ⟨gap, hgap, hbehind⟩ := exists_gap behind
          rw [← hpair.1, hbehind, hinner]
          exact ⟨text ++ ',' :: (gap ++ inner), by simp, ⟨text, gap, hspelled, hgap,
            Or.inr ⟨inner, hrest, rfl⟩⟩, max_le hdepth hbound⟩
      · rename_i first behind _ hfirst
        obtain ⟨text, rfl, hspelled, hdepth⟩ := hsound _ _ _ hfirst
        split at hread
        · rename_i behind' hskip
          obtain ⟨gap, hgap, rfl⟩ := exists_gap_parenthesis hskip
          simp only [Option.some.injEq, Prod.mk.injEq] at hread
          rw [← hread.1, ← hread.2]
          exact ⟨text ++ (gap ++ [')']), by simp, ⟨text, gap, hspelled, hgap,
            Or.inl ⟨rfl, rfl⟩⟩, by simpa [deepest] using hdepth⟩
        · cases hread

theorem endsForm_gap
    {gap : List Char}
    (hgap : IsGap gap)
    (more : List Char) :
    EndsForm (gap ++ ')' :: more) := by
  intro c hc
  cases gap with
  | nil => exact Or.inr (Or.inl (by simpa using hc.symm))
  | cons blank gap =>
      obtain rfl : blank = c := by simpa using hc
      exact Or.inr (Or.inr (hgap blank List.mem_cons_self))

theorem readItems_append
    {read : List Char → Option (TypeForm × List Char)} {items : List TypeForm}
    {inner : List Char} {limit : Nat}
    (hread : ∀ item ∈ items, ∀ text more, item.IsSpelledBy text → EndsForm more →
      read (text ++ more) = some (item, more))
    (hspelled : AreSpelledBy items inner)
    (hitems : items ≠ [])
    (hlimit : items.length ≤ limit)
    (more : List Char) :
    readItems read limit (inner ++ more) = some (items, more) := by
  induction items generalizing inner limit with
  | nil => exact absurd rfl hitems
  | cons item others ih =>
      rw [List.forall_mem_cons] at hread
      obtain ⟨limit, rfl⟩ : ∃ fewer, limit = fewer + 1 :=
        Nat.exists_eq_succ_of_ne_zero (by simp at hlimit; omega)
      have hlater : others.length ≤ limit := by simpa using hlimit
      obtain ⟨first, gap, hfirst, hgap, ⟨rfl, rfl⟩ | ⟨rest, hrest, rfl⟩⟩ := hspelled
      · -- The parenthesis follows the item.
        have hskip : skipGap (gap ++ ')' :: more) = ')' :: more :=
          skipGap_append hgap (by simp [isGap])
        have hitem := hread.1 first _ hfirst (endsForm_gap hgap more)
        rw [List.append_assoc, List.append_assoc, List.singleton_append, readItems, hitem]
        split
        · cases ‹_›
        · rename_i behind hcomma
          simp only [Option.some.injEq, Prod.mk.injEq] at hcomma
          rw [hcomma.2, skipGap, List.dropWhile_cons_of_neg (by decide)] at hskip
          cases hskip
        · rename_i _ hsame
          simp only [Option.some.injEq, Prod.mk.injEq] at hsame
          rw [← hsame.1, ← hsame.2, hskip]
          rfl
      · have hitem := hread.1 first (',' :: (gap ++ rest ++ more)) hfirst (by simp [EndsForm])
        have hfront := front_of_areSpelledBy hrest more
        have hskip : skipGap (gap ++ rest ++ more) = rest ++ more := by
          rw [List.append_assoc]
          exact skipGap_append hgap fun c hc => (hfront c hc).1
        rw [List.append_assoc, List.cons_append]
        simp only [readItems, hitem, hskip]
        by_cases hothers : others = []
        · subst hothers
          rw [show rest = [')'] from hrest]
          rfl
        · split
          · rename_i behind hparenthesis
            exact absurd rfl ((hfront ')' (by simp [hparenthesis])).2 hothers)
          · rw [ih hread.2 hrest hothers hlater, Option.map_some]

theorem readTuple_append
    {read : List Char → Option (TypeForm × List Char)} {items : List TypeForm}
    {gap inner : List Char}
    (hread : ∀ item ∈ items, ∀ text more, item.IsSpelledBy text → EndsForm more →
      read (text ++ more) = some (item, more))
    (hgap : IsGap gap)
    (hspelled : AreSpelledBy items inner)
    (more : List Char) :
    readTuple read (gap ++ inner ++ more) = some (.tuple items, more) := by
  have hfront := front_of_areSpelledBy hspelled more
  have hskip : skipGap (gap ++ inner ++ more) = inner ++ more := by
    rw [List.append_assoc]
    exact skipGap_append hgap fun c hc => (hfront c hc).1
  unfold readTuple
  rw [hskip]
  by_cases hitems : items = []
  · subst hitems
    rw [show inner = [')'] from hspelled]
    rfl
  · have hlimit : items.length ≤ (inner ++ more).length := by
      have hlength := length_le_of_areSpelledBy hspelled
      rw [List.length_append]
      omega
    split
    · rename_i rest hparenthesis
      exact absurd rfl ((hfront ')' (by simp [hparenthesis])).2 hitems)
    · rw [readItems_append hread hspelled hitems hlimit, Option.map_some]

theorem readTuple_sound
    {read : List Char → Option (TypeForm × List Char)} {bound : Nat}
    {chars rest : List Char} {form : TypeForm}
    (hsound : ReadsSpelled read bound)
    (hread : readTuple read chars = some (form, rest)) :
    ∃ items gap inner, form = .tuple items ∧ IsGap gap ∧ AreSpelledBy items inner ∧
      deepest items ≤ bound ∧ chars = gap ++ inner ++ rest := by
  obtain ⟨gap, hgap, hchars⟩ := exists_gap chars
  unfold readTuple at hread
  split at hread
  · rename_i behind hskip
    simp only [Option.some.injEq, Prod.mk.injEq] at hread
    rw [hskip] at hchars
    rw [← hread.1, ← hread.2]
    exact ⟨[], gap, [')'], rfl, hgap, rfl, Nat.zero_le _, by simp [hchars]⟩
  · obtain ⟨⟨items, behind⟩, hitems, hpair⟩ := Option.map_eq_some_iff.mp hread
    simp only [Prod.mk.injEq] at hpair
    obtain ⟨inner, hinner, hspelled, hbound⟩ := readItems_sound hsound hitems
    rw [← hpair.1, ← hpair.2]
    exact ⟨items, gap, inner, rfl, hgap, hspelled, hbound, by
      rw [List.append_assoc, ← hinner, ← hchars]⟩

/-! ## Forms -/

theorem readArrays_sound
    {stem form : TypeForm} {text behind rest : List Char}
    (hstem : stem.IsSpelledBy text)
    (hread : readArrays (some (stem, behind)) = some (form, rest)) :
    ∃ whole, text ++ behind = whole ++ rest ∧ form.IsSpelledBy whole ∧ form.depth = stem.depth := by
  obtain ⟨suffix, hbehind, hspelled, hdepth⟩ := readSuffixes_sound hstem hread
  exact ⟨text ++ suffix, by rw [hbehind, List.append_assoc], hspelled, hdepth⟩

theorem readArrays_readStem_sound
    {chars rest : List Char} {form : TypeForm}
    (hread : readArrays (readStem chars) = some (form, rest)) :
    ∃ text, chars = text ++ rest ∧ form.IsSpelledBy text ∧ form.depth = 0 := by
  cases hstem : readStem chars with
  | none =>
      rw [hstem] at hread
      cases hread
  | some read =>
      obtain ⟨stem, behind⟩ := read
      rw [hstem] at hread
      obtain ⟨name, text, rfl, hname, rfl⟩ := readStem_sound hstem
      have hspelled : IsSpelledBy (.named name) text := hname
      exact readArrays_sound hspelled hread

theorem readArrays_readTuple_sound
    {read : List Char → Option (TypeForm × List Char)} {bound : Nat}
    {opening chars rest : List Char} {form : TypeForm}
    (hsound : ReadsSpelled read bound)
    (hopening : IsOpening opening)
    (hread : readArrays (readTuple read chars) = some (form, rest)) :
    ∃ text, opening ++ chars = text ++ rest ∧ form.IsSpelledBy text ∧ form.depth ≤ bound + 1 := by
  cases htuple : readTuple read chars with
  | none =>
      rw [htuple] at hread
      cases hread
  | some tuple =>
      obtain ⟨stem, behind⟩ := tuple
      rw [htuple] at hread
      obtain ⟨items, gap, inner, rfl, hgap, hitems, hbound, rfl⟩ := readTuple_sound hsound htuple
      have hstem : IsSpelledBy (.tuple items) (opening ++ (gap ++ inner)) :=
        ⟨opening, gap, inner, hopening, hgap, hitems, rfl⟩
      obtain ⟨text, htext, hspelled, hdepth⟩ := readArrays_sound hstem hread
      refine ⟨text, by rw [← htext]; simp, hspelled, ?_⟩
      rw [hdepth, depth]
      omega

theorem readsSpelled_readWithin
    (limit : Nat) :
    ReadsSpelled (readWithin limit) limit := by
  induction limit with
  | zero =>
      intro chars form rest hread
      rw [readWithin.eq_3 _ _ (by simp) (by simp)] at hread
      obtain ⟨text, htext, hspelled, hdepth⟩ := readArrays_readStem_sound hread
      exact ⟨text, htext, hspelled, hdepth.le⟩
  | succ limit ih =>
      intro chars form rest hread
      unfold readWithin at hread
      split at hread
      · rename_i inner hlimit
        obtain rfl : limit = _ := Nat.succ.inj hlimit
        exact readArrays_readTuple_sound ih (Or.inl rfl) hread
      · rename_i inner hlimit
        obtain rfl : limit = _ := Nat.succ.inj hlimit
        exact readArrays_readTuple_sound ih (Or.inr rfl) hread
      · obtain ⟨text, htext, hspelled, hdepth⟩ := readArrays_readStem_sound hread
        exact ⟨text, htext, hspelled, by omega⟩

theorem readWithin_name
    {name : String} {text more : List Char}
    (limit : Nat)
    (hstem : IsStem name text)
    (hends : EndsStem more) :
    readWithin limit (text ++ more) = readSuffixes more.length (.named name) more := by
  have hread := readStem_append hstem hends
  rw [readWithin.eq_3, hread]
  · rfl
  · intro _ inner _ hopening
    rw [hopening] at hread
    cases hread
  · intro _ inner _ hopening
    -- The name would be followed by a parenthesis, which ends no stem.
    have htuple : readStem ('t' :: 'u' :: 'p' :: 'l' :: 'e' :: '(' :: inner) =
        some (.named "tuple", '(' :: inner) := rfl
    rw [hopening, htuple] at hread
    simp only [Option.some.injEq, Prod.mk.injEq] at hread
    have hnone := hends '(' (by simp [← hread.2])
    exact absurd hnone (by decide)

theorem readWithin_tuple
    {items : List TypeForm} {opening gap inner : List Char} {limit : Nat}
    (hopening : IsOpening opening)
    (hgap : IsGap gap)
    (hitems : ∀ item ∈ items, ∀ text more, item.IsSpelledBy text → EndsForm more →
      readWithin limit (text ++ more) = some (item, more))
    (hspelled : AreSpelledBy items inner)
    (more : List Char) :
    readWithin (limit + 1) (opening ++ (gap ++ inner) ++ more) =
      readSuffixes more.length (.tuple items) more := by
  have htuple := readTuple_append hitems hgap hspelled more
  rcases hopening with rfl | rfl
  · rw [List.append_assoc, List.singleton_append, readWithin, htuple]
    rfl
  · rw [List.append_assoc]
    simp only [List.cons_append, List.nil_append]
    rw [readWithin, htuple]
    rfl

theorem exists_readSuffixes_of_isSpelledBy
    {form : TypeForm} {text more : List Char} {limit : Nat}
    (hspelled : form.IsSpelledBy text)
    (hdepth : form.depth ≤ limit)
    (hends : EndsStem more) :
    ∃ bound, readWithin limit (text ++ more) = readSuffixes bound form more ∧
      more.length ≤ bound := by
  induction form using formInduction generalizing text more limit with
  | named name => exact ⟨more.length, readWithin_name limit hspelled hends, le_rfl⟩
  | tuple items ih =>
      obtain ⟨opening, gap, inner, hopening, hgap, hinner, rfl⟩ := hspelled
      rw [depth] at hdepth
      obtain ⟨limit, rfl⟩ : ∃ fewer, limit = fewer + 1 :=
        Nat.exists_eq_succ_of_ne_zero (by omega)
      have hdeepest : ∀ item ∈ items, item.depth ≤ limit :=
        (deepest_le_iff items limit).mp (by omega)
      have hitems : ∀ item ∈ items, ∀ text more, item.IsSpelledBy text → EndsForm more →
          readWithin limit (text ++ more) = some (item, more) := by
        intro item hmember first behind hfirst hbehind
        obtain ⟨bound, hread, -⟩ :=
          ih item hmember hfirst (hdeepest item hmember) hbehind.endsStem
        rw [hread, readSuffixes_of_not_bracket hbehind.not_bracket]
      exact ⟨more.length, readWithin_tuple hopening hgap hitems hinner more, le_rfl⟩
  | array item ih =>
      obtain ⟨stem, hstem, rfl⟩ := hspelled
      have hbracket : EndsStem ('[' :: ']' :: more) := by simp [EndsStem]
      obtain ⟨bound, hread, hbound⟩ := ih hstem hdepth hbracket
      obtain ⟨bound, rfl⟩ : ∃ fewer, bound = fewer + 1 :=
        Nat.exists_eq_succ_of_ne_zero (by simp at hbound; omega)
      refine ⟨bound, ?_, ?_⟩
      · rw [List.append_assoc, ← readSuffixes_array, ← hread]
        rfl
      · simp only [List.length_cons] at hbound
        omega
  | fixedArray item count ih =>
      obtain ⟨stem, digits, hstem, hsize, rfl⟩ := hspelled
      have hbracket : EndsStem ('[' :: (digits ++ ']' :: more)) := by simp [EndsStem]
      obtain ⟨bound, hread, hbound⟩ := ih hstem hdepth hbracket
      obtain ⟨bound, rfl⟩ : ∃ fewer, bound = fewer + 1 :=
        Nat.exists_eq_succ_of_ne_zero (by simp at hbound; omega)
      refine ⟨bound, ?_, ?_⟩
      · rw [← readSuffixes_fixedArray bound item more hsize, ← hread]
        simp
      · simp only [List.length_cons, List.length_append] at hbound
        omega

theorem readWithin_append
    {form : TypeForm} {text more : List Char} {limit : Nat}
    (hspelled : form.IsSpelledBy text)
    (hdepth : form.depth ≤ limit)
    (hends : EndsForm more) :
    readWithin limit (text ++ more) = some (form, more) := by
  obtain ⟨bound, hread, -⟩ :=
    exists_readSuffixes_of_isSpelledBy hspelled hdepth hends.endsStem
  rw [hread, readSuffixes_of_not_bracket hends.not_bracket]

theorem ofText?_eq_some_iff
    {text : String} {form : TypeForm} :
    ofText? text = some form ↔ form.IsSpelledBy text.toList ∧ form.depth ≤ depthLimit := by
  unfold ofText?
  constructor
  · intro hread
    split at hread
    · rename_i hwhole
      obtain rfl := Option.some.inj hread
      obtain ⟨whole, htext, hspelled, hdepth⟩ := readsSpelled_readWithin depthLimit _ _ _ hwhole
      rw [List.append_nil] at htext
      rw [htext]
      exact ⟨hspelled, hdepth⟩
    · cases hread
  · intro hboth
    have hread := readWithin_append hboth.1 hboth.2 endsForm_nil
    rw [List.append_nil] at hread
    rw [hread]

end TypeForm
end Abi
end MintWatch
