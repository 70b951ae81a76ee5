import Mathlib
import MintWatch.Proofs.Abi.TypeText
import MintWatch.Proofs.Abi.Typing
/-!
# Names and spellings of types

Contracts spell a tuple as its components in parentheses with commas between them, however
many there are.  The name that is printed for a type differs from this spelling in tuples
of one component, which have a comma more.  How many commas there are more tells how many
such tuples the type has, so the name is the spelling only if it has none.  Sizes of arrays
are printed without leading zeros.
-/

namespace MintWatch

/-! ## Decimal digits -/

namespace Text

theorem decimal_concat
    (digits : List Char) (c : Char) :
    decimal (digits ++ [c]) = decimal digits * 10 + (c.toNat - 48) := by
  unfold decimal
  rw [List.foldl_append]
  rfl

theorem digitChar_of_isDigit
    {c : Char}
    (hdigit : c.isDigit = true) :
    c.toNat - 48 < 10 ∧ Nat.digitChar (c.toNat - 48) = c := by
  simp only [Char.isDigit, Bool.and_eq_true, decide_eq_true_eq] at hdigit
  have hlow : 48 ≤ c.toNat := hdigit.1
  have hhigh : c.toNat ≤ 57 := hdigit.2
  have hsmall : c.toNat - 48 < 10 := by omega
  refine ⟨hsmall, Char.toNat_inj.mp ?_⟩
  rw [Nat.toNat_digitChar_of_lt_ten hsmall]
  omega

theorem head?_toDigits
    {number : Nat}
    (hpos : 0 < number) :
    (Nat.toDigits 10 number).head? ≠ some '0' := by
  induction number using Nat.strongRecOn with
  | ind number ih =>
      rcases Nat.lt_or_ge number 10 with hsmall | hlarge
      · rw [Nat.toDigits_of_lt_base hsmall]
        interval_cases number <;> decide
      · rw [Nat.toDigits_of_base_le (by decide) hlarge,
          List.head?_append_of_ne_nil _ Nat.toDigits_ne_nil]
        exact ih (number / 10) (by omega) (by omega)

theorem toDigits_decimal
    {digits : List Char}
    (hsome : digits ≠ [])
    (hdigits : ∀ c ∈ digits, c.isDigit = true)
    (hfront : digits.head? ≠ some '0') :
    Nat.toDigits 10 (decimal digits) = digits := by
  induction digits using List.reverseRecOn with
  | nil => exact absurd rfl hsome
  | append_singleton digits c ih =>
      rw [List.forall_mem_append, List.forall_mem_singleton] at hdigits
      obtain ⟨hsmall, hchar⟩ := digitChar_of_isDigit hdigits.2
      rw [decimal_concat, Nat.mul_comm]
      cases digits with
      | nil =>
          rw [show decimal [] = 0 from rfl, Nat.mul_zero, Nat.zero_add,
            Nat.toDigits_of_lt_base hsmall, hchar]
          rfl
      | cons first rest =>
          have hread := ih (List.cons_ne_nil first rest) hdigits.1 hfront
          have hpos : 0 < decimal (first :: rest) := by
            rw [Nat.pos_iff_ne_zero]
            intro hzero
            rw [hzero] at hread
            obtain ⟨rfl, -⟩ := List.cons.inj hread
            exact hfront rfl
          rw [← Nat.toDigits_append_toDigits (by decide) hpos hsmall, hread,
            Nat.toDigits_of_lt_base hsmall, hchar]

end Text

namespace Abi

/-! ## Sizes without leading zeros -/

/-- Whether no size that is written between brackets starts with a zero. -/
def HasPlainSizes (chars : List Char) : Prop :=
  chars.IsChain fun c next => c = '[' → next ≠ '0'

instance (chars : List Char) : Decidable (HasPlainSizes chars) :=
  inferInstanceAs (Decidable (chars.IsChain fun c next => c = '[' → next ≠ '0'))

theorem hasPlainSizes_append_iff
    {front back : List Char} :
    HasPlainSizes (front ++ back) ↔ HasPlainSizes front ∧ HasPlainSizes back ∧
      (front.getLast? = some '[' → back.head? ≠ some '0') := by
  unfold HasPlainSizes
  rw [List.isChain_append]
  constructor
  · intro hchain
    refine ⟨hchain.1, hchain.2.1, ?_⟩
    intro hlast hhead
    exact hchain.2.2 '[' hlast '0' hhead rfl rfl
  · intro hplain
    refine ⟨hplain.1, hplain.2.1, ?_⟩
    rintro c hlast next hhead rfl rfl
    exact hplain.2.2 hlast hhead

theorem hasPlainSizes_of_no_bracket
    {chars : List Char}
    (hnone : '[' ∉ chars) :
    HasPlainSizes chars := by
  induction chars with
  | nil => exact .nil
  | cons c rest ih =>
      rw [List.mem_cons, not_or] at hnone
      unfold HasPlainSizes
      rw [List.isChain_cons]
      exact ⟨fun _ _ hbracket => absurd hbracket.symm hnone.1, ih hnone.2⟩

theorem hasPlainSizes_intercalate_iff
    {texts : List (List Char)} :
    HasPlainSizes (List.intercalate [','] texts) ↔ ∀ text ∈ texts, HasPlainSizes text := by
  induction texts with
  | nil => simp [HasPlainSizes]
  | cons text texts ih =>
      cases texts with
      | nil => simp
      | cons next texts =>
          rw [List.intercalate_cons_cons, List.append_assoc, hasPlainSizes_append_iff,
            hasPlainSizes_append_iff, ih, List.forall_mem_cons]
          simp [HasPlainSizes]

namespace Ty

mutual

/-- A type as contracts spell it. -/
def spelling : Ty → String
  | .array item => spelling item ++ "[]"
  | .fixedArray item count => spelling item ++ "[" ++ toString count.val ++ "]"
  | .tuple items => "(" ++ String.intercalate "," (spellings items) ++ ")"
  | ty => ty.name

def spellings : List Ty → List String
  | [] => []
  | ty :: rest => spelling ty :: spellings rest

end

mutual

/-- The number of tuples of one component in a type. -/
def singles : Ty → Nat
  | .array item => singles item
  | .fixedArray item _ => singles item
  | .tuple items => (if items.length = 1 then 1 else 0) + singlesOf items
  | _ => 0

def singlesOf : List Ty → Nat
  | [] => 0
  | ty :: rest => singles ty + singlesOf rest

end

theorem names_eq_map
    (types : List Ty) :
    names types = types.map name :=
  eq_map_of_cons names rfl (fun _ _ => rfl) types

theorem spellings_eq_map
    (types : List Ty) :
    spellings types = types.map spelling :=
  eq_map_of_cons spellings rfl (fun _ _ => rfl) types

theorem singlesOf_eq_zero_iff
    (types : List Ty) :
    singlesOf types = 0 ↔ ∀ ty ∈ types, ty.singles = 0 :=
  forall_iff_of_cons (fun types => singlesOf types = 0) rfl
    (fun ty rest => by rw [singlesOf, Nat.add_eq_zero_iff]) types

theorem name_tuple
    (items : List Ty) :
    (tuple items).name =
      "(" ++ String.intercalate "," (items.map name) ++ if items.length = 1 then ",)" else ")" := by
  cases items with
  | nil => rfl
  | cons first rest =>
      cases rest with
      | nil => simp [name, String.append_assoc]
      | cons second rest => simp [name, names_eq_map]

theorem spelling_of_isWord
    {ty : Ty}
    (hword : ty.isWord = true) :
    ty.spelling = ty.name ∧ ty.singles = 0 := by
  cases ty <;> first | exact ⟨rfl, rfl⟩ | cases hword

theorem name_eq_spelling
    {ty : Ty}
    (hsingles : ty.singles = 0) :
    ty.name = ty.spelling := by
  induction ty using layoutInduction with
  | word ty hword => exact (spelling_of_isWord hword).1.symm
  | bytes => rfl
  | string => rfl
  | array item ih =>
      rw [singles] at hsingles
      rw [name, spelling, ih hsingles]
  | fixedArray item count ih =>
      rw [singles] at hsingles
      rw [name, spelling, ih hsingles]
  | tuple items ih =>
      rw [singles, Nat.add_eq_zero_iff, singlesOf_eq_zero_iff] at hsingles
      have hseveral : items.length ≠ 1 := by
        intro hone
        simp [hone] at hsingles
      have hnames : items.map name = items.map spelling :=
        List.map_congr_left fun item hmember => ih item hmember (hsingles.2 item hmember)
      rw [name_tuple, if_neg hseveral, spelling, spellings_eq_map, hnames]

/-! ## Commas -/

def commas (text : String) : Nat :=
  text.toList.count ','

theorem commas_append
    (front back : String) :
    commas (front ++ back) = commas front + commas back := by
  unfold commas
  rw [String.toList_append, List.count_append]

theorem commas_intercalate
    (texts : List String) :
    commas (String.intercalate "," texts) = (texts.map commas).sum + (texts.length - 1) := by
  induction texts with
  | nil => rfl
  | cons text texts ih =>
      cases texts with
      | nil => simp
      | cons next texts =>
          rw [String.intercalate_cons_cons, commas_append, commas_append, ih]
          simp only [List.map_cons, List.sum_cons, List.length_cons, show commas "," = 1 from rfl]
          omega

theorem sum_commas_name
    {types : List Ty}
    (heach : ∀ ty ∈ types, commas ty.name = commas ty.spelling + ty.singles) :
    ((types.map name).map commas).sum =
      ((types.map spelling).map commas).sum + singlesOf types := by
  induction types with
  | nil => rfl
  | cons ty rest ih =>
      rw [List.forall_mem_cons] at heach
      simp only [List.map_cons, List.sum_cons, singlesOf, ih heach.2, heach.1]
      omega

theorem commas_name
    (ty : Ty) :
    commas ty.name = commas ty.spelling + ty.singles := by
  induction ty using layoutInduction with
  | word ty hword =>
      obtain ⟨hsame, hnone⟩ := spelling_of_isWord hword
      rw [hsame, hnone, Nat.add_zero]
  | bytes => rfl
  | string => rfl
  | array item ih =>
      rw [name, spelling, singles, commas_append, commas_append, ih]
      omega
  | fixedArray item count ih =>
      rw [name, spelling, singles]
      simp only [commas_append, ih]
      omega
  | tuple items ih =>
      have hcommas := sum_commas_name ih
      rw [name_tuple, spelling, spellings_eq_map, singles]
      simp only [commas_append, commas_intercalate, List.length_map, hcommas]
      split
      · rw [show commas ",)" = commas ")" + 1 from rfl]
        omega
      · omega

/-! ## Names and sizes -/

theorem bracket_not_mem_toString
    (number : Nat) :
    '[' ∉ (toString number).toList := by
  rw [Nat.toString_eq_repr, Nat.toList_repr]
  intro hmember
  exact absurd (Nat.isDigit_of_mem_toDigits (by decide) (by decide) hmember) (by decide)

theorem bracket_not_mem_name
    {ty : Ty}
    (hword : ty.isWord = true) :
    '[' ∉ ty.name.toList := by
  cases ty with
  | bool => decide
  | int width => simp [name, bracket_not_mem_toString, -Nat.toString_eq_repr]
  | uint width => simp [name, bracket_not_mem_toString, -Nat.toString_eq_repr]
  | fixedBytes width => simp [name, bracket_not_mem_toString, -Nat.toString_eq_repr]
  | address => decide
  | function => decide
  | _ => cases hword

/-- The size in the name of an array is printed without leading zeros. -/
theorem hasPlainSizes_size
    (count : Count) :
    HasPlainSizes ("[" ++ toString count.val ++ "]").toList := by
  have hfront : (toString count.val).toList.head? ≠ some '0' := by
    rw [Nat.toString_eq_repr, Nat.toList_repr]
    exact Text.head?_toDigits count.pos
  rw [String.toList_append, String.toList_append, hasPlainSizes_append_iff,
    hasPlainSizes_append_iff]
  have hdigits := hasPlainSizes_of_no_bracket (bracket_not_mem_toString count.val)
  exact ⟨⟨by decide, hdigits, fun _ => hfront⟩, by decide, by simp⟩

theorem hasPlainSizes_name
    (ty : Ty) :
    HasPlainSizes ty.name.toList := by
  induction ty using layoutInduction with
  | word ty hword => exact hasPlainSizes_of_no_bracket (bracket_not_mem_name hword)
  | bytes => decide
  | string => decide
  | array item ih =>
      rw [name, String.toList_append, hasPlainSizes_append_iff]
      exact ⟨ih, by decide, by simp⟩
  | fixedArray item count ih =>
      have hname : (fixedArray item count).name =
          item.name ++ ("[" ++ toString count.val ++ "]") := by
        simp only [name, String.append_assoc]
      rw [hname, String.toList_append, hasPlainSizes_append_iff]
      exact ⟨ih, hasPlainSizes_size count, by simp⟩
  | tuple items ih =>
      have hinner : HasPlainSizes (String.intercalate "," (items.map name)).toList := by
        rw [String.toList_intercalate]
        apply hasPlainSizes_intercalate_iff.mpr
        simpa using ih
      rw [name_tuple, String.toList_append, String.toList_append, hasPlainSizes_append_iff,
        hasPlainSizes_append_iff]
      split
      · exact ⟨⟨by decide, hinner, by simp⟩, by decide, by simp⟩
      · exact ⟨⟨by decide, hinner, by simp⟩, by decide, by simp⟩

end Ty
end Abi
end MintWatch
