import Mathlib
import MintWatch.Proofs.Abi.TypeText
/-!
# Where a text in a tuple ends

A tuple is written as texts with commas between them, and is read as items with commas
between them.  The two agree on where one ends if each text is self-contained: it has no
comma and no closing parenthesis outside the tuples that it opens itself, it closes them,
and it has no white space at either end.  Every text that spells a form is self-contained.
-/

namespace MintWatch
namespace Abi

open TypeForm

/--
The number of tuples that are open behind a character.  A comma or a closing parenthesis
while none is open belongs to the tuple around the text.
-/
def levelAfter (level : Nat) (c : Char) : Option Nat :=
  if c = '(' then some (level + 1)
  else if c = ')' then if level = 0 then none else some (level - 1)
  else if c = ',' then if level = 0 then none else some level
  else some level

def levelThrough (level : Nat) : List Char → Option Nat
  | [] => some level
  | c :: rest => (levelAfter level c).bind fun next => levelThrough next rest

/-- Whether a character leaves the level as it is. -/
def IsPlain (c : Char) : Prop :=
  c ≠ '(' ∧ c ≠ ')' ∧ c ≠ ','

instance (c : Char) : Decidable (IsPlain c) :=
  inferInstanceAs (Decidable (c ≠ '(' ∧ c ≠ ')' ∧ c ≠ ','))

def isSelfContained (chars : List Char) : Bool :=
  levelThrough 0 chars = some 0 && chars.head?.any (fun c => !isGap c) &&
    chars.getLast?.any fun c => !isGap c

variable {chars text more rest : List Char} {level next : Nat}

/-! ## Levels -/

theorem levelThrough_append
    (level : Nat) (chars more : List Char) :
    levelThrough level (chars ++ more) =
      (levelThrough level chars).bind fun next => levelThrough next more := by
  induction chars generalizing level with
  | nil => rfl
  | cons c rest ih =>
      rw [List.cons_append, levelThrough, levelThrough, Option.bind_assoc]
      simp only [ih]

theorem levelThrough_append_of_some
    (hchars : levelThrough level chars = some next)
    (more : List Char) :
    levelThrough level (chars ++ more) = levelThrough next more := by
  rw [levelThrough_append, hchars, Option.bind_some]

theorem levelAfter_add
    {c : Char}
    (hafter : levelAfter level c = some next)
    (extra : Nat) :
    levelAfter (level + extra) c = some (next + extra) := by
  unfold levelAfter at hafter ⊢
  split_ifs at hafter ⊢ <;> simp only [Option.some.injEq] at hafter ⊢ <;> omega

theorem levelThrough_add
    (hchars : levelThrough level chars = some next)
    (extra : Nat) :
    levelThrough (level + extra) chars = some (next + extra) := by
  induction chars generalizing level with
  | nil =>
      rw [levelThrough, Option.some.injEq] at hchars ⊢
      rw [hchars]
  | cons c rest ih =>
      obtain ⟨middle, hafter, hrest⟩ := Option.bind_eq_some_iff.mp hchars
      rw [levelThrough, levelAfter_add hafter extra, Option.bind_some]
      exact ih hrest

theorem levelThrough_of_plain
    (hplain : ∀ c ∈ chars, IsPlain c)
    (level : Nat) :
    levelThrough level chars = some level := by
  induction chars with
  | nil => rfl
  | cons c rest ih =>
      rw [List.forall_mem_cons] at hplain
      obtain ⟨⟨hopen, hclose, hcomma⟩, hrest⟩ := hplain
      rw [levelThrough, levelAfter, if_neg hopen, if_neg hclose, if_neg hcomma, Option.bind_some]
      exact ih hrest

theorem levelThrough_comma
    (level : Nat) (rest : List Char) :
    levelThrough (level + 1) (',' :: rest) = levelThrough (level + 1) rest := by
  simp [levelThrough, levelAfter]

theorem levelThrough_open
    (level : Nat) (rest : List Char) :
    levelThrough level ('(' :: rest) = levelThrough (level + 1) rest := by
  simp [levelThrough, levelAfter]

theorem levelThrough_close
    (level : Nat) (rest : List Char) :
    levelThrough (level + 1) (')' :: rest) = levelThrough level rest := by
  simp [levelThrough, levelAfter]

theorem levelThrough_intercalate
    {texts : List (List Char)}
    (hlevel : ∀ text ∈ texts, levelThrough 0 text = some 0)
    (level : Nat) :
    levelThrough (level + 1) (List.intercalate [','] texts) = some (level + 1) := by
  have hat : ∀ text ∈ texts, levelThrough (level + 1) text = some (level + 1) := by
    intro text hmember
    simpa using levelThrough_add (hlevel text hmember) (level + 1)
  clear hlevel
  induction texts with
  | nil => rfl
  | cons text texts ih =>
      rw [List.forall_mem_cons] at hat
      cases texts with
      | nil => simpa using hat.1
      | cons next texts =>
          rw [List.intercalate_cons_cons, List.append_assoc, levelThrough_append_of_some hat.1,
            List.singleton_append, levelThrough_comma]
          exact ih hat.2

theorem levelThrough_of_ends
    (hends : ∃ c ∈ chars.head?, c = ',' ∨ c = ')') :
    levelThrough 0 chars = none := by
  obtain ⟨c, hc, hends⟩ := hends
  cases chars with
  | nil => cases hc
  | cons first rest =>
      obtain rfl : first = c := by simpa using hc
      rcases hends with rfl | rfl <;> simp [levelThrough, levelAfter]

/-- A character of a kind that parentheses and commas are not of. -/
theorem isPlain_of_among
    {among : Char → Bool} {c : Char}
    (hmarks : among '(' = false ∧ among ')' = false ∧ among ',' = false)
    (hc : among c = true) :
    IsPlain c := by
  refine ⟨?_, ?_, ?_⟩ <;> rintro rfl <;> simp_all

theorem levelThrough_of_isGap
    {gap : List Char}
    (hgap : IsGap gap)
    (level : Nat) :
    levelThrough level gap = some level :=
  levelThrough_of_plain (fun c hmember => isPlain_of_among (by decide) (hgap c hmember)) level

theorem continuesName_of_isName
    (hname : IsName chars) :
    ∀ c ∈ chars, continuesName c = true := by
  obtain ⟨first, rest, rfl, hstarts, hrest⟩ := hname
  exact List.forall_mem_cons.mpr ⟨continuesName_of_startsName hstarts, hrest⟩

/-- The characters of a stem continue a name, but for a dot. -/
theorem mem_stem
    {name : String}
    (hstem : IsStem name chars) :
    ∀ c ∈ chars, continuesName c = true ∨ c = '.' := by
  intro c hc
  rcases hstem with ⟨hname, -⟩ | ⟨front, back, hfront, hback, rfl, -⟩
  · exact Or.inl (continuesName_of_isName hname c hc)
  · rcases List.mem_append.mp hc with hc | hc
    · exact Or.inl (continuesName_of_isName hfront c hc)
    · rcases List.mem_cons.mp hc with hdot | hc
      · exact Or.inr hdot
      · rcases hback with rfl | hback
        · cases hc
        · exact Or.inl (continuesName_of_isName hback c hc)

/-! ## What spells a form is self-contained -/

theorem levelThrough_of_areSpelledBy
    {items : List TypeForm} {inner : List Char}
    (hitems : ∀ item ∈ items, ∀ text level, item.IsSpelledBy text →
      levelThrough level text = some level)
    (hspelled : AreSpelledBy items inner)
    (level : Nat) :
    levelThrough (level + 1) inner = some level := by
  induction items generalizing inner with
  | nil =>
      rw [show inner = [')'] from hspelled, levelThrough_close]
      rfl
  | cons item others ih =>
      rw [List.forall_mem_cons] at hitems
      obtain ⟨first, gap, hfirst, hgap, htail⟩ := hspelled
      rcases htail with ⟨-, rfl⟩ | ⟨inner, hinner, rfl⟩
      · rw [levelThrough_append_of_some (hitems.1 first _ hfirst),
          levelThrough_append_of_some (levelThrough_of_isGap hgap _), levelThrough_close]
        rfl
      · rw [levelThrough_append_of_some (hitems.1 first _ hfirst), levelThrough_comma,
          levelThrough_append_of_some (levelThrough_of_isGap hgap _)]
        exact ih hitems.2 hinner

theorem levelThrough_of_isSpelledBy
    {form : TypeForm}
    (hspelled : form.IsSpelledBy text)
    (level : Nat) :
    levelThrough level text = some level := by
  induction form using formInduction generalizing text level with
  | named name =>
      apply levelThrough_of_plain
      intro c hc
      rcases mem_stem hspelled c hc with hcontinues | rfl
      · exact isPlain_of_among (by decide) hcontinues
      · decide
  | tuple items ih =>
      obtain ⟨opening, gap, inner, hopening, hgap, hinner, rfl⟩ := hspelled
      have hopened : levelThrough level opening = some (level + 1) := by
        rcases hopening with rfl | rfl <;> simp [levelThrough, levelAfter]
      rw [levelThrough_append_of_some hopened,
        levelThrough_append_of_some (levelThrough_of_isGap hgap _)]
      exact levelThrough_of_areSpelledBy
        (fun item hmember text level hitem => ih item hmember hitem level) hinner level
  | array item ih =>
      obtain ⟨stem, hstem, rfl⟩ := hspelled
      rw [levelThrough_append_of_some (ih hstem level)]
      exact levelThrough_of_plain (by simp [IsPlain]) level
  | fixedArray item count ih =>
      obtain ⟨stem, digits, hstem, hsize, rfl⟩ := hspelled
      rw [levelThrough_append_of_some (ih hstem level)]
      apply levelThrough_of_plain
      intro c hc
      simp only [List.mem_cons, List.mem_append, List.not_mem_nil, or_false] at hc
      rcases hc with rfl | hdigit | rfl
      · decide
      · exact isPlain_of_among (by decide) (hsize.2.1 c hdigit)
      · decide

theorem getLast?_of_areSpelledBy
    {items : List TypeForm} {inner : List Char}
    (hspelled : AreSpelledBy items inner) :
    inner.getLast? = some ')' := by
  induction items generalizing inner with
  | nil => rw [show inner = [')'] from hspelled, List.getLast?_singleton]
  | cons item others ih =>
      obtain ⟨first, gap, -, -, ⟨-, rfl⟩ | ⟨inner, hinner, rfl⟩⟩ := hspelled
      · simp
      · simp [List.getLast?_append, List.getLast?_cons, ih hinner]

theorem back_of_isSpelledBy
    {form : TypeForm}
    (hspelled : form.IsSpelledBy text) :
    ∀ c ∈ text.getLast?, isGap c = false := by
  intro c hc
  cases form with
  | named name =>
      rcases mem_stem hspelled c (List.mem_of_getLast? hc) with hcontinues | rfl
      · exact isGap_eq_false_of_among (by decide) hcontinues
      · decide
  | tuple items =>
      obtain ⟨opening, gap, inner, -, -, hinner, rfl⟩ := hspelled
      rw [List.getLast?_append, List.getLast?_append, getLast?_of_areSpelledBy hinner] at hc
      obtain rfl : ')' = c := by simpa using hc
      decide
  | array item =>
      obtain ⟨stem, -, rfl⟩ := hspelled
      obtain rfl : ']' = c := by simpa using hc
      decide
  | fixedArray item count =>
      obtain ⟨stem, digits, -, -, rfl⟩ := hspelled
      obtain rfl : ']' = c := by simpa [List.getLast?_cons] using hc
      decide

theorem isSelfContained_iff :
    isSelfContained chars = true ↔
      levelThrough 0 chars = some 0 ∧ chars ≠ [] ∧ (∀ c ∈ chars.head?, isGap c = false) ∧
        ∀ c ∈ chars.getLast?, isGap c = false := by
  unfold isSelfContained
  cases chars with
  | nil => simp
  | cons c rest => simp [List.getLast?_cons, and_assoc]

theorem isSelfContained_of_isSpelledBy
    {form : TypeForm}
    (hspelled : form.IsSpelledBy text) :
    isSelfContained text = true := by
  rw [isSelfContained_iff]
  refine ⟨levelThrough_of_isSpelledBy hspelled 0, ?_, ?_, back_of_isSpelledBy hspelled⟩
  · obtain ⟨c, rest, rfl, -⟩ := exists_front_of_isSpelledBy hspelled
    exact List.cons_ne_nil c rest
  · intro c hc
    have hfront := front_of_isSpelledBy hspelled [] c (by simpa using hc)
    exact hfront.1

/-! ## Where texts end -/

/-- Whether what follows a text ends it: a comma or a parenthesis, behind white space. -/
def EndsText (more : List Char) : Prop :=
  ∃ gap c tail, IsGap gap ∧ (c = ',' ∨ c = ')') ∧ more = gap ++ c :: tail

/-- What would be left of a self-contained text behind its end is nothing. -/
theorem eq_nil_of_endsText
    {front extra : List Char}
    (hfront : levelThrough 0 front = some 0)
    (hwhole : isSelfContained (front ++ extra) = true)
    (hends : EndsText (extra ++ more)) :
    extra = [] := by
  obtain ⟨hlevel, -, -, hback⟩ := isSelfContained_iff.mp hwhole
  rw [levelThrough_append_of_some hfront] at hlevel
  have hblank : IsGap extra → extra = [] := by
    intro hextra
    cases hlast : extra.getLast? with
    | none => exact List.getLast?_eq_none_iff.mp hlast
    | some last =>
        have hnone := hback last (by simp [hlast])
        rw [hextra last (List.mem_of_getLast? hlast)] at hnone
        cases hnone
  obtain ⟨gap, c, tail, hgap, hc, hsplit⟩ := hends
  rcases List.append_eq_append_iff.mp hsplit with ⟨blank, rfl, -⟩ | ⟨behind, rfl, hbehind⟩
  · exact hblank fun c hmember => hgap c (List.mem_append_left blank hmember)
  · cases behind with
    | nil => exact hblank (by simpa using hgap)
    | cons first behind =>
        -- What is left goes on to a comma or a parenthesis while no tuple is open.
        obtain ⟨rfl, -⟩ := List.cons.inj hbehind
        rw [levelThrough_append_of_some (levelThrough_of_isGap hgap 0),
          levelThrough_of_ends ⟨c, rfl, hc⟩] at hlevel
        cases hlevel

theorem eq_of_endsText
    {taken : List Char}
    (htext : isSelfContained text = true)
    (htaken : isSelfContained taken = true)
    (hmore : EndsText more)
    (hrest : EndsText rest)
    (hsame : text ++ more = taken ++ rest) :
    text = taken ∧ more = rest := by
  have htextLevel := (isSelfContained_iff.mp htext).1
  have htakenLevel := (isSelfContained_iff.mp htaken).1
  rcases List.append_eq_append_iff.mp hsame with ⟨extra, rfl, rfl⟩ | ⟨extra, rfl, rfl⟩
  · rw [eq_nil_of_endsText htextLevel htaken hmore]
    simp
  · rw [eq_nil_of_endsText htakenLevel htext hrest]
    simp

/-! ## Items and texts -/

/-- What follows the first of some texts with commas between them and a parenthesis behind. -/
def behindFirst (texts : List (List Char)) (more : List Char) : List Char :=
  if texts.isEmpty then ')' :: more else ',' :: (List.intercalate [','] texts ++ ')' :: more)

theorem intercalate_cons_append
    (text : List Char) (texts : List (List Char)) (more : List Char) :
    List.intercalate [','] (text :: texts) ++ ')' :: more = text ++ behindFirst texts more := by
  unfold behindFirst
  cases texts with
  | nil => simp
  | cons next texts => simp

theorem endsText_behindFirst
    (texts : List (List Char)) (more : List Char) :
    EndsText (behindFirst texts more) := by
  unfold behindFirst
  split
  · exact ⟨[], ')', more, by simp [IsGap], Or.inr rfl, rfl⟩
  · exact ⟨[], ',', _, by simp [IsGap], Or.inl rfl, rfl⟩

theorem front_of_isSelfContained
    (htext : isSelfContained text = true)
    (more : List Char) :
    ∀ c ∈ (text ++ more).head?, isGap c = false ∧ c ≠ ')' := by
  obtain ⟨hlevel, hsome, hfront, -⟩ := isSelfContained_iff.mp htext
  cases text with
  | nil => exact absurd rfl hsome
  | cons first behind =>
      intro c hc
      obtain rfl : first = c := by simpa using hc
      refine ⟨hfront first rfl, ?_⟩
      rintro rfl
      rw [levelThrough_of_ends ⟨')', rfl, Or.inr rfl⟩] at hlevel
      cases hlevel

theorem eq_nil_of_isGap
    {gap : List Char}
    (hgap : IsGap gap)
    (more : List Char)
    (hfront : ∀ c ∈ (gap ++ more).head?, isGap c = false) :
    gap = [] := by
  cases gap with
  | nil => rfl
  | cons blank gap =>
      have hnone := hfront blank rfl
      rw [hgap blank List.mem_cons_self] at hnone
      cases hnone

theorem eq_of_gap_eq_behindFirst
    {texts : List (List Char)} {gap : List Char}
    (hgap : IsGap gap)
    (hsame : gap ++ ')' :: rest = behindFirst texts more) :
    texts = [] ∧ rest = more := by
  have hnone : gap = [] := by
    apply eq_nil_of_isGap hgap (')' :: rest)
    rw [hsame]
    unfold behindFirst
    split <;> simp [isGap]
  rw [hnone, List.nil_append] at hsame
  unfold behindFirst at hsame
  split at hsame
  · rename_i hempty
    exact ⟨List.isEmpty_iff.mp hempty, (List.cons.inj hsame).2⟩
  · simp at hsame

theorem eq_of_comma_eq_behindFirst
    {texts : List (List Char)}
    (hsame : ',' :: chars = behindFirst texts more) :
    texts ≠ [] ∧ chars = List.intercalate [','] texts ++ ')' :: more := by
  unfold behindFirst at hsame
  split at hsame
  · simp at hsame
  · rename_i hsome
    exact ⟨by simpa using hsome, (List.cons.inj hsame).2⟩

/--
The items of a tuple are spelled by the texts that the tuple was written with, if each of
the texts is self-contained.
-/
theorem forall₂_of_areSpelledBy
    {items : List TypeForm} {texts : List (List Char)} {inner : List Char}
    (hspelled : AreSpelledBy items inner)
    (hwhole : ∀ text ∈ texts, isSelfContained text = true)
    (hsome : texts ≠ [])
    (hsame : inner ++ rest = List.intercalate [','] texts ++ ')' :: more) :
    rest = more ∧ List.Forall₂ IsSpelledBy items texts := by
  induction texts generalizing items inner with
  | nil => exact absurd rfl hsome
  | cons text texts ih =>
      rw [List.forall_mem_cons] at hwhole
      rw [intercalate_cons_append] at hsame
      cases items with
      | nil =>
          rw [show inner = [')'] from hspelled] at hsame
          have hfront := front_of_isSelfContained hwhole.1 (behindFirst texts more)
          exact absurd rfl (hfront ')' (by rw [← hsame]; rfl)).2
      | cons item others =>
          obtain ⟨first, gap, hfirst, hgap, ⟨rfl, rfl⟩ | ⟨inner, hinner, rfl⟩⟩ := hspelled
          · have hends : EndsText (gap ++ ')' :: rest) := ⟨gap, ')', rest, hgap, Or.inr rfl, rfl⟩
            obtain ⟨rfl, htail⟩ := eq_of_endsText (isSelfContained_of_isSpelledBy hfirst) hwhole.1
              hends (endsText_behindFirst texts more) (by simpa using hsame)
            obtain ⟨rfl, rfl⟩ := eq_of_gap_eq_behindFirst hgap htail
            exact ⟨rfl, .cons hfirst .nil⟩
          · have hends : EndsText (',' :: (gap ++ inner ++ rest)) :=
              ⟨[], ',', _, by simp [IsGap], Or.inl rfl, rfl⟩
            obtain ⟨rfl, htail⟩ := eq_of_endsText (isSelfContained_of_isSpelledBy hfirst) hwhole.1
              hends (endsText_behindFirst texts more) (by simpa using hsame)
            obtain ⟨htexts, hbehind⟩ := eq_of_comma_eq_behindFirst htail
            rw [List.append_assoc] at hbehind
            have hnone : gap = [] := by
              apply eq_nil_of_isGap hgap (inner ++ rest)
              rw [hbehind]
              obtain ⟨next, later, rfl⟩ := List.exists_cons_of_ne_nil htexts
              rw [intercalate_cons_append]
              intro c hc
              exact (front_of_isSelfContained (hwhole.2 next List.mem_cons_self) _ c hc).1
            rw [hnone, List.nil_append] at hbehind
            obtain ⟨hrest, hothers⟩ := ih hinner hwhole.2 htexts hbehind
            exact ⟨hrest, .cons hfirst hothers⟩

end Abi
end MintWatch
