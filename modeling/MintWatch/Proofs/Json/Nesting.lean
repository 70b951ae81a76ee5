import Mathlib
import MintWatch.Proofs.Json.Grammar
import MintWatch.Proofs.Lists
/-!
# What can be written

A text can be written for any characters in it, and a value can be written with so many
arrays and objects around any other if its items, or the values of its members, can be written
with one fewer.
-/

namespace MintWatch
namespace Json

def CanBeWritten (depth : Nat) (value : Json) : Prop :=
  ∃ chars, IsWritten depth chars value

/-! ## Texts -/

theorem fourDigits?_control :
    ∀ code < 0x20,
      fourDigits? '0' '0' (Hex.digit (code / 16)) (Hex.digit (code % 16)) = some code := by
  decide

theorem exists_standsFor
    (c : Char) :
    ∃ front, StandsFor front c := by
  by_cases hcontrol : c.toNat < 0x20
  · have hcode := StandsFor.code (fourDigits?_control c.toNat hcontrol)
      (by rw [isHighSurrogate, Bool.and_eq_false_iff]; simp; omega)
      (by rw [isLowSurrogate, Bool.and_eq_false_iff]; simp; omega)
    rw [Char.ofNat_toNat] at hcode
    exact ⟨_, hcode⟩
  · by_cases hquote : c = '"'
    · subst hquote
      exact ⟨['\\', '"'], .escape rfl⟩
    · by_cases hslash : c = '\\'
      · subst hslash
        exact ⟨['\\', '\\'], .escape rfl⟩
      · exact ⟨[c], .plain (not_lt.mp hcontrol) hquote hslash⟩

theorem exists_inside
    (text : List Char) :
    ∃ inside, AreInside inside text := by
  induction text with
  | nil => exact ⟨[], [], .nil, rfl⟩
  | cons c text ih =>
      obtain ⟨front, hfront⟩ := exists_standsFor c
      obtain ⟨inside, hinside⟩ := ih
      exact ⟨front ++ inside, hinside.cons hfront⟩

theorem IsScalar.isWritten
    {depth : Nat} {chars : List Char} {value : Json}
    (hscalar : IsScalar chars value) :
    IsWritten depth chars value := by
  cases depth with
  | zero => exact hscalar
  | succ depth => exact .scalar hscalar

theorem canBeWritten_string
    (depth : Nat) (text : String) :
    CanBeWritten depth (.string text) := by
  obtain ⟨inside, hinside⟩ := exists_inside text.toList
  refine ⟨'"' :: (inside ++ ['"']), IsScalar.isWritten ?_⟩
  rw [← String.ofList_toList (s := text)]
  exact .string hinside

/-! ## Arrays and objects -/

theorem isBlank_nil :
    IsBlank [] :=
  fun _ hmember => absurd hmember List.not_mem_nil

section Listed

variable {α : Type} {is : List Char → α → Prop}

theorem isPadded_of_is
    {chars : List Char} {value : α}
    (hvalue : is chars value) :
    IsPadded is chars value :=
  ⟨[], chars, [], isBlank_nil, hvalue, isBlank_nil, by simp⟩

theorem exists_listed_iff
    {values : List α} :
    (∃ inside, AreListed is inside values) ↔ ∀ value ∈ values, ∃ chars, is chars value := by
  constructor
  · rintro ⟨inside, ⟨_, rfl⟩ | ⟨parts, _, hparts, _⟩⟩
    · exact fun value hvalue => absurd hvalue List.not_mem_nil
    · intro value hvalue
      obtain ⟨part, _, before, front, after, _, hfront, _⟩ :=
        exists_left_of_forall₂ hparts hvalue
      exact ⟨front, hfront⟩
  · intro hvalues
    obtain ⟨parts, hparts⟩ := exists_forall₂ hvalues
    have hpadded : List.Forall₂ (IsPadded is) parts values :=
      hparts.flip.imp fun _ _ hvalue => isPadded_of_is hvalue
    cases parts with
    | nil =>
        cases hpadded
        exact ⟨[], .inl ⟨isBlank_nil, rfl⟩⟩
    | cons part others => exact ⟨_, .inr ⟨_, List.cons_ne_nil _ _, hpadded, rfl⟩⟩

end Listed

theorem canBeWritten_array_iff
    {depth : Nat} {values : List Json} :
    CanBeWritten depth (.array values) ↔
      ∃ fewer, depth = fewer + 1 ∧ ∀ value ∈ values, CanBeWritten fewer value := by
  constructor
  · rintro ⟨chars, hwritten⟩
    cases depth with
    | zero => cases hwritten
    | succ depth =>
        cases hwritten with
        | scalar hscalar => cases hscalar
        | array hitems => exact ⟨depth, rfl, exists_listed_iff.mp ⟨_, hitems⟩⟩
  · rintro ⟨fewer, rfl, hvalues⟩
    obtain ⟨inside, hinside⟩ := exists_listed_iff.mpr hvalues
    exact ⟨_, .array hinside⟩

theorem exists_isMember_iff
    {is : List Char → Json → Prop} {member : String × Json} :
    (∃ chars, IsMember is chars member) ↔ ∃ chars, is chars member.2 := by
  constructor
  · rintro ⟨_, hmember⟩
    cases hmember with
    | intro _ _ _ hvalue => exact ⟨_, hvalue⟩
  · rintro ⟨chars, hvalue⟩
    obtain ⟨key, value⟩ := member
    obtain ⟨inside, hinside⟩ := exists_inside key.toList
    have hmember := IsMember.intro hinside isBlank_nil isBlank_nil hvalue
    rw [String.ofList_toList] at hmember
    exact ⟨_, hmember⟩

theorem canBeWritten_object_iff
    {depth : Nat} {members : List (String × Json)}
    (hdistinct : HaveDistinctKeys members) :
    CanBeWritten depth (.object members) ↔
      ∃ fewer, depth = fewer + 1 ∧ ∀ member ∈ members, CanBeWritten fewer member.2 := by
  constructor
  · rintro ⟨chars, hwritten⟩
    cases depth with
    | zero => cases hwritten
    | succ depth =>
        cases hwritten with
        | scalar hscalar => cases hscalar
        | object hmembers =>
            refine ⟨depth, rfl, ?_⟩
            intro member hmember
            exact exists_isMember_iff.mp
              (exists_listed_iff.mp ⟨_, hmembers⟩ member (mem_of_mem_lastOfEach hmember))
  · rintro ⟨fewer, rfl, hmembers⟩
    obtain ⟨inside, hinside⟩ := exists_listed_iff.mpr fun member hmember =>
      exists_isMember_iff.mpr (hmembers member hmember)
    have hobject := IsNested.object hinside
    rw [lastOfEach_of_haveDistinctKeys hdistinct] at hobject
    exact ⟨_, hobject⟩

theorem exists_text_iff
    {value : Json} :
    (∃ text, IsWrittenAs text value) ↔ CanBeWritten depthLimit value := by
  constructor
  · rintro ⟨_, _, front, _, _, hfront, _⟩
    exact ⟨front, hfront⟩
  · rintro ⟨chars, hchars⟩
    refine ⟨String.ofList chars, ?_⟩
    rw [IsWrittenAs, String.toList_ofList]
    exact isPadded_of_is hchars

end Json
end MintWatch
