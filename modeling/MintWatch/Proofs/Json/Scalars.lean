import Mathlib
import MintWatch.Json.Reader
import MintWatch.Proofs.Lists
/-!
# The grammar of JSON scalars

What stands for a text, a number or one of the three words is stated as a relation between
characters and a value.  Each reader is compared with its relation twice: what it takes from
the front of its input stands for what it returns, and what stands for a value is read as that
value.  A text ends with its quotation mark.  A number ends where the characters that could
continue it end, so it is read as a whole only if none of them follows.
-/

namespace MintWatch
namespace Json

/-- Whether what follows a value is nothing, white space, a comma or a closing bracket. -/
def EndsValue (rest : List Char) : Prop :=
  ∀ c ∈ rest.head?, isSpace c = true ∨ c = ',' ∨ c = ']' ∨ c = '}'

theorem EndsValue.not_in_number
    {rest : List Char}
    (hends : EndsValue rest) :
    ∀ c ∈ rest.head?, c.isDigit = false ∧ c ≠ '.' ∧ c ≠ 'e' ∧ c ≠ 'E' := by
  intro c hc
  rcases hends c hc with hspace | rfl | rfl | rfl
  · simp only [isSpace, Bool.or_eq_true, decide_eq_true_eq] at hspace
    rcases hspace with ((rfl | rfl) | rfl) | rfl <;> decide
  all_goals decide

/-! ## Texts -/

/-- Whether characters between quotation marks stand for one character. -/
inductive StandsFor : List Char → Char → Prop
  | plain {c : Char} (hprintable : 0x20 ≤ c.toNat) (hquote : c ≠ '"') (hslash : c ≠ '\\') :
      StandsFor [c] c
  | escape {c e : Char} (hescape : escaped? c = some e) : StandsFor ['\\', c] e
  | code {a b c d : Char} {code : Nat} (hcode : fourDigits? a b c d = some code)
      (hhigh : isHighSurrogate code = false) (hlow : isLowSurrogate code = false) :
      StandsFor ['\\', 'u', a, b, c, d] (Char.ofNat code)
  | pair {a b c d e f g h : Char} {high low : Nat} (hfirst : fourDigits? a b c d = some high)
      (hhigh : isHighSurrogate high = true) (hsecond : fourDigits? e f g h = some low)
      (hlow : isLowSurrogate low = true) :
      StandsFor ['\\', 'u', a, b, c, d, '\\', 'u', e, f, g, h]
        (Char.ofNat (0x10000 + (high - 0xD800) * 0x400 + (low - 0xDC00)))

/-- Whether characters between quotation marks stand for a text. -/
def AreInside (chars text : List Char) : Prop :=
  ∃ parts, List.Forall₂ StandsFor parts text ∧ chars = parts.flatten

theorem AreInside.cons
    {front chars text : List Char} {c : Char}
    (hfront : StandsFor front c)
    (hchars : AreInside chars text) :
    AreInside (front ++ chars) (c :: text) := by
  obtain ⟨parts, hparts, rfl⟩ := hchars
  exact ⟨front :: parts, .cons hfront hparts, rfl⟩

theorem readText_of_standsFor
    {front : List Char} {c : Char}
    (hfront : StandsFor front c)
    (rest : List Char) :
    readText (front ++ rest) = (readText rest).map fun read => (c :: read.1, read.2) := by
  cases hfront with
  | plain hprintable hquote hslash =>
      rw [List.singleton_append, readText.eq_5 c rest hquote
        (fun _ _ _ _ _ hsame => absurd hsame hslash) (fun _ _ hsame => absurd hsame hslash),
        if_neg (by simp [hslash]; omega)]
  | @escape own _ hescape =>
      have hown : own ≠ 'u' := by
        rintro rfl
        exact nomatch hescape
      rw [List.cons_append, List.singleton_append, readText.eq_4 own rest
        (fun _ _ _ _ _ hsame => absurd hsame hown), hescape]
  | code hcode hhigh hlow =>
      simp [readText, hcode, hhigh, hlow]
  | pair hfirst hhigh hsecond hlow =>
      simp [readText, hfirst, hhigh, hsecond, hlow]

theorem readText_append
    {chars text : List Char}
    (hinside : AreInside chars text)
    (rest : List Char) :
    readText (chars ++ '"' :: rest) = some (text, rest) := by
  obtain ⟨parts, hparts, rfl⟩ := hinside
  induction hparts with
  | nil => simp [readText]
  | cons hfront _ ih =>
      rw [List.flatten_cons, List.append_assoc, readText_of_standsFor hfront, ih]
      rfl

theorem exists_inside_of_standsFor
    {front more text rest : List Char} {c : Char}
    (hfront : StandsFor front c)
    (hmore : ∀ {text rest}, readText more = some (text, rest) →
      ∃ inside, AreInside inside text ∧ more = inside ++ '"' :: rest)
    (hread : (readText more).map (fun read => (c :: read.1, read.2)) = some (text, rest)) :
    ∃ inside, AreInside inside text ∧ front ++ more = inside ++ '"' :: rest := by
  obtain ⟨⟨others, _⟩, hothers, hsame⟩ := Option.map_eq_some_iff.mp hread
  obtain ⟨rfl, rfl⟩ := Prod.mk.inj hsame
  obtain ⟨inside, hinside, rfl⟩ := hmore hothers
  exact ⟨front ++ inside, hinside.cons hfront, (List.append_assoc ..).symm⟩

theorem exists_inside_of_readText
    {chars text rest : List Char}
    (hread : readText chars = some (text, rest)) :
    ∃ inside, AreInside inside text ∧ chars = inside ++ '"' :: rest := by
  fun_induction readText chars generalizing text rest with
  | case2 =>
      cases hread
      exact ⟨[], ⟨[], .nil, rfl⟩, rfl⟩
  | case5 a b c d high hfirst hhigh e f g h more low hsecond hlow scalar =>
      rename_i ih
      exact exists_inside_of_standsFor (.pair hfirst hhigh hsecond hlow) ih hread
  | case9 a b c d more code hcode hhigh hlow ih =>
      exact exists_inside_of_standsFor
        (.code hcode (Bool.not_eq_true _ ▸ hhigh) (Bool.not_eq_true _ ▸ hlow)) ih hread
  | case11 c more _ e hescape ih =>
      exact exists_inside_of_standsFor (.escape hescape) ih hread
  | case13 c more hquote _ _ hplain ih =>
      simp only [Bool.or_eq_true, decide_eq_true_eq, not_or, not_lt] at hplain
      exact exists_inside_of_standsFor (.plain hplain.1 hquote hplain.2) ih hread
  | _ => cases hread

/-! ## Numbers -/

/-- Whether a number rounds to a finite double. -/
def FitsDouble (mantissa : Nat) (exponent : Int) : Prop :=
  (mantissa : ℚ) * 10 ^ exponent < doubleLimit

-- The exponents are named, so that the powers are never multiplied out.
theorem doubleLimit_eq :
    ∃ low high, low < high ∧ high ≤ 1024 ∧ doubleLimit = Nat.pow 2 high - Nat.pow 2 low := by
  refine ⟨970, 1024, by decide, le_rfl, ?_⟩
  rw [doubleLimit]

theorem doubleLimit_pos :
    0 < doubleLimit := by
  obtain ⟨low, high, hlow, _, hlimit⟩ := doubleLimit_eq
  rw [hlimit]
  exact Nat.sub_pos_of_lt (Nat.pow_lt_pow_right (by decide) hlow)

theorem doubleLimit_le_pow
    {places : Nat}
    (hplaces : 400 < places) :
    doubleLimit ≤ 10 ^ places := by
  obtain ⟨low, high, _, hhigh, hlimit⟩ := doubleLimit_eq
  calc doubleLimit ≤ 2 ^ high := hlimit ▸ Nat.sub_le ..
    _ ≤ 2 ^ (3 * places) := Nat.pow_le_pow_right (by decide) (by omega)
    _ = (2 ^ 3) ^ places := pow_mul ..
    _ ≤ 10 ^ places := Nat.pow_le_pow_left (by decide) _

theorem fitsDouble_natCast_iff
    {mantissa places : Nat} :
    FitsDouble mantissa places ↔ mantissa * 10 ^ places < doubleLimit := by
  rw [FitsDouble, zpow_natCast, ← Nat.cast_lt (α := ℚ)]
  push_cast
  rfl

theorem fitsDouble_neg_iff
    {mantissa places : Nat} :
    FitsDouble mantissa (-places) ↔ mantissa < doubleLimit * 10 ^ places := by
  rw [FitsDouble, zpow_neg, zpow_natCast, ← div_eq_mul_inv, div_lt_iff₀ (by positivity),
    ← Nat.cast_lt (α := ℚ)]
  push_cast
  rfl

theorem exceedsDouble_eq_false_iff
    {mantissa : Nat} {exponent : Int} :
    exceedsDouble mantissa exponent = false ↔ FitsDouble mantissa exponent := by
  unfold exceedsDouble
  split
  · next hzero =>
    rw [hzero, FitsDouble, Nat.cast_zero, zero_mul, Nat.cast_pos]
    exact iff_of_true rfl doubleLimit_pos
  · next hzero =>
    have hone : 1 ≤ mantissa := Nat.one_le_iff_ne_zero.mpr hzero
    split
    · next hwhole =>
      obtain ⟨places, rfl⟩ := Int.eq_ofNat_of_zero_le hwhole
      have hlarge : 400 < (places : Int) → doubleLimit ≤ mantissa * 10 ^ places := by
        intro hplaces
        exact (doubleLimit_le_pow (by omega)).trans (Nat.le_mul_of_pos_left _ hone)
      rw [fitsDouble_natCast_iff, Int.toNat_natCast, Nat.pow_eq, Bool.or_eq_false_iff,
        decide_eq_false_iff_not, decide_eq_false_iff_not, not_le]
      constructor
      · rintro ⟨_, hsmall⟩
        exact hsmall
      · intro hsmall
        exact ⟨fun hplaces => absurd (hlarge hplaces) hsmall.not_ge, hsmall⟩
    · next hfraction =>
      obtain ⟨places, rfl⟩ : ∃ places : Nat, exponent = -(places : Int) :=
        ⟨exponent.natAbs, by omega⟩
      have hsmall : ¬ places ≤ Nat.log2 mantissa → mantissa < doubleLimit * 10 ^ places := by
        intro hplaces
        have hlog : mantissa < 2 ^ places := (Nat.log2_lt hzero).mp (not_le.mp hplaces)
        calc mantissa < 2 ^ places := hlog
          _ ≤ 10 ^ places := Nat.pow_le_pow_left (by decide) _
          _ ≤ doubleLimit * 10 ^ places := Nat.le_mul_of_pos_left _ doubleLimit_pos
      rw [fitsDouble_neg_iff, neg_neg, Int.toNat_natCast, ← not_le]
      simp only [Nat.pow_eq, Bool.and_eq_false_iff, decide_eq_false_iff_not]
      constructor
      · rintro (hplaces | hlimit)
        · exact not_le.mpr (hsmall hplaces)
        · exact hlimit
      · exact Or.inr

/-- Digits without a zero in front of others. -/
structure IsWhole (digits : List Char) : Prop where
  areDigits : AreDigits digits
  ne_nil : digits ≠ []
  eq_zero : digits.head? = some '0' → digits = ['0']

/-- Whether characters are a point and digits, or nothing and no digits. -/
inductive IsFraction : List Char → List Char → Prop
  | absent : IsFraction [] []
  | present {digits : List Char} (hdigits : AreDigits digits) (hsome : digits ≠ []) :
      IsFraction ('.' :: digits) digits

inductive IsSigned : List Char → Int → Prop
  | bare {digits : List Char} (hdigits : AreDigits digits) (hsome : digits ≠ []) :
      IsSigned digits (Text.decimal digits)
  | plus {digits : List Char} (hdigits : AreDigits digits) (hsome : digits ≠ []) :
      IsSigned ('+' :: digits) (Text.decimal digits)
  | minus {digits : List Char} (hdigits : AreDigits digits) (hsome : digits ≠ []) :
      IsSigned ('-' :: digits) (-Text.decimal digits)

/-- Whether characters give a power of ten, or are left out and it is the power zero. -/
inductive IsScale : List Char → Int → Prop
  | absent : IsScale [] 0
  | present {mark : Char} {signed : List Char} {power : Int} (hmark : mark = 'e' ∨ mark = 'E')
      (hsigned : IsSigned signed power) :
      IsScale (mark :: signed) power

/-- Whether characters are a number without a sign before it. -/
inductive IsMagnitude : List Char → Nat → Int → Prop
  | intro {whole point fraction scale : List Char} {power : Int} (hwhole : IsWhole whole)
      (hfraction : IsFraction point fraction) (hscale : IsScale scale power)
      (hfits : FitsDouble (Text.decimal (whole ++ fraction)) (power - fraction.length)) :
      IsMagnitude (whole ++ (point ++ scale)) (Text.decimal (whole ++ fraction))
        (power - fraction.length)

/-- Whether characters do not begin with one that could continue a number's digits. -/
def StopDigits (chars : List Char) : Prop :=
  ∀ c ∈ chars.head?, c.isDigit = false

theorem EndsValue.stopDigits
    {rest : List Char}
    (hends : EndsValue rest) :
    StopDigits rest :=
  fun c hc => (hends.not_in_number c hc).1

theorem IsScale.stops
    {scale rest : List Char} {power : Int}
    (hscale : IsScale scale power)
    (hends : EndsValue rest) :
    ∀ c ∈ (scale ++ rest).head?, c.isDigit = false ∧ c ≠ '.' := by
  cases hscale with
  | absent =>
      intro c hc
      obtain ⟨hdigit, hpoint, _⟩ := hends.not_in_number c hc
      exact ⟨hdigit, hpoint⟩
  | present hmark _ =>
      rw [List.cons_append, forall_head?_cons]
      rcases hmark with rfl | rfl <;> decide

theorem IsFraction.stopDigits
    {point fraction more : List Char}
    (hfraction : IsFraction point fraction)
    (hmore : StopDigits more) :
    StopDigits (point ++ more) := by
  cases hfraction with
  | absent => exact hmore
  | present _ _ =>
      rw [StopDigits, List.cons_append, forall_head?_cons]
      decide

theorem readExponentDigits_append
    {digits rest : List Char}
    (hdigits : AreDigits digits)
    (hsome : digits ≠ [])
    (hstop : StopDigits rest)
    (negative : Bool) :
    readExponentDigits negative (digits ++ rest) =
      some (if negative then -(Text.decimal digits : Int) else Text.decimal digits, rest) := by
  unfold readExponentDigits
  rw [takeWhile_append_of_stop hdigits hstop, dropWhile_append_of_stop hdigits hstop]
  simp [hsome]

theorem readExponent_append
    {scale rest : List Char} {power : Int}
    (hscale : IsScale scale power)
    (hends : EndsValue rest) :
    readExponent (scale ++ rest) = some (power, rest) := by
  cases hscale with
  | absent =>
      cases rest with
      | nil => rfl
      | cons c rest =>
          obtain ⟨_, _, he, hE⟩ := hends.not_in_number c rfl
          simp [readExponent, he, hE]
  | @present mark signed _ hmark hsigned =>
      have hmarked : (mark = 'e' || mark = 'E') = true := by simpa using hmark
      simp only [List.cons_append, readExponent, hmarked, if_true]
      cases hsigned with
      | bare hdigits hsome =>
          have hread := readExponentDigits_append hdigits hsome hends.stopDigits false
          obtain ⟨c, others, rfl⟩ := List.exists_cons_of_ne_nil hsome
          have hdigit : c.isDigit = true := hdigits c List.mem_cons_self
          split
          · next heq =>
            obtain rfl : c = '-' := (List.cons.inj heq).1
            cases hdigit
          · next heq =>
            obtain rfl : c = '+' := (List.cons.inj heq).1
            cases hdigit
          · exact hread
      | plus hdigits hsome =>
          exact readExponentDigits_append hdigits hsome hends.stopDigits false
      | minus hdigits hsome =>
          exact readExponentDigits_append hdigits hsome hends.stopDigits true

theorem readFraction_append
    {point fraction more : List Char}
    (hfraction : IsFraction point fraction)
    (hstops : ∀ c ∈ more.head?, c.isDigit = false ∧ c ≠ '.') :
    readFraction (point ++ more) = some (fraction, more) := by
  cases hfraction with
  | absent =>
      unfold readFraction
      split
      · next rest heq =>
        rw [List.nil_append] at heq
        rw [heq, forall_head?_cons] at hstops
        exact absurd rfl hstops.2
      · rfl
  | present hdigits hsome =>
      have hstop : StopDigits more := fun c hc => (hstops c hc).1
      rw [List.cons_append, readFraction, takeWhile_append_of_stop hdigits hstop,
        dropWhile_append_of_stop hdigits hstop]
      simp [hsome]

theorem isWhole_iff
    {digits : List Char}
    (hdigits : AreDigits digits) :
    IsWhole digits ↔
      ¬ (digits.isEmpty || (1 < digits.length && digits.head? = some '0')) = true := by
  cases digits with
  | nil => simp [show ¬ IsWhole [] from fun hwhole => hwhole.ne_nil rfl]
  | cons c others =>
      constructor
      · intro hwhole hrefused
        simp only [List.isEmpty_cons, Bool.false_or, Bool.and_eq_true, decide_eq_true_eq]
          at hrefused
        rw [hwhole.eq_zero hrefused.2] at hrefused
        exact absurd hrefused.1 (by decide)
      · intro haccepted
        refine ⟨hdigits, List.cons_ne_nil _ _, ?_⟩
        intro hzero
        obtain rfl := Option.some.inj hzero
        have hshort : others = [] := by simpa [List.length_pos_iff] using haccepted
        rw [hshort]

theorem readMagnitude_eq_some_iff
    {chars whole behind rest : List Char} {value : Json} {negative : Bool}
    (hwhole : chars.takeWhile Char.isDigit = whole)
    (hbehind : chars.dropWhile Char.isDigit = behind) :
    readMagnitude negative chars = some (value, rest) ↔
      IsWhole whole ∧ ∃ fraction more power, readFraction behind = some (fraction, more) ∧
        readExponent more = some (power, rest) ∧
        FitsDouble (Text.decimal (whole ++ fraction)) (power - fraction.length) ∧
        value = .number (if negative then -(Text.decimal (whole ++ fraction) : Int)
          else Text.decimal (whole ++ fraction)) (power - fraction.length) := by
  rw [isWhole_iff (hwhole ▸ areDigits_takeWhile chars)]
  unfold readMagnitude
  rw [hwhole, hbehind]
  by_cases hrefused : (whole.isEmpty || (1 < whole.length && whole.head? = some '0')) = true
  · simp [hrefused]
  · simp only [hrefused, Bool.false_eq_true, if_false, not_false_eq_true, true_and,
      Option.bind_eq_bind, Option.bind_eq_some_iff, Prod.exists, Option.ite_none_left_eq_some,
      Option.some.injEq, Prod.mk.injEq, Bool.not_eq_true, exceedsDouble_eq_false_iff]
    constructor
    · rintro ⟨fraction, more, hfraction, power, _, hpower, hfits, rfl, rfl⟩
      exact ⟨fraction, more, power, hfraction, hpower, hfits, rfl⟩
    · rintro ⟨fraction, more, power, hfraction, hpower, hfits, rfl⟩
      exact ⟨fraction, more, hfraction, power, rest, hpower, hfits, rfl, rfl⟩

theorem readMagnitude_append
    {chars rest : List Char} {mantissa : Nat} {exponent : Int}
    (hmagnitude : IsMagnitude chars mantissa exponent)
    (hends : EndsValue rest)
    (negative : Bool) :
    readMagnitude negative (chars ++ rest) =
      some (.number (if negative then -(mantissa : Int) else mantissa) exponent, rest) := by
  cases hmagnitude with
  | @intro whole point fraction scale power hwhole hfraction hscale hfits =>
      have hscaled := hscale.stops hends
      have hpointed : StopDigits (point ++ (scale ++ rest)) :=
        hfraction.stopDigits fun c hc => (hscaled c hc).1
      rw [List.append_assoc, List.append_assoc, readMagnitude_eq_some_iff
        (takeWhile_append_of_stop hwhole.areDigits hpointed)
        (dropWhile_append_of_stop hwhole.areDigits hpointed)]
      exact ⟨hwhole, fraction, scale ++ rest, power, readFraction_append hfraction hscaled,
        readExponent_append hscale hends, hfits, rfl⟩

theorem exists_digits_of_readExponentDigits
    {chars rest : List Char} {negative : Bool} {power : Int}
    (hread : readExponentDigits negative chars = some (power, rest)) :
    ∃ digits, AreDigits digits ∧ digits ≠ [] ∧ chars = digits ++ rest ∧
      power = if negative then -(Text.decimal digits : Int) else Text.decimal digits := by
  unfold readExponentDigits at hread
  by_cases hnone : chars.takeWhile Char.isDigit = []
  · simp [hnone] at hread
  · simp only [List.isEmpty_iff, hnone, if_false, Option.some.injEq, Prod.mk.injEq] at hread
    obtain ⟨rfl, rfl⟩ := hread
    exact ⟨_, areDigits_takeWhile chars, hnone, List.takeWhile_append_dropWhile.symm, rfl⟩

theorem exists_scale_of_readExponent
    {chars rest : List Char} {power : Int}
    (hread : readExponent chars = some (power, rest)) :
    ∃ scale, IsScale scale power ∧ chars = scale ++ rest := by
  unfold readExponent at hread
  split at hread
  · cases hread
    exact ⟨[], .absent, rfl⟩
  · next mark more =>
    split at hread
    · next hmarked =>
      have hmark : mark = 'e' ∨ mark = 'E' := by simpa using hmarked
      split at hread
      · obtain ⟨digits, hdigits, hsome, rfl, rfl⟩ := exists_digits_of_readExponentDigits hread
        exact ⟨mark :: '-' :: digits, .present hmark (.minus hdigits hsome), rfl⟩
      · obtain ⟨digits, hdigits, hsome, rfl, rfl⟩ := exists_digits_of_readExponentDigits hread
        exact ⟨mark :: '+' :: digits, .present hmark (.plus hdigits hsome), rfl⟩
      · obtain ⟨digits, hdigits, hsome, rfl, rfl⟩ := exists_digits_of_readExponentDigits hread
        exact ⟨mark :: digits, .present hmark (.bare hdigits hsome), rfl⟩
    · cases hread
      exact ⟨[], .absent, rfl⟩

theorem exists_point_of_readFraction
    {chars fraction more : List Char}
    (hread : readFraction chars = some (fraction, more)) :
    ∃ point, IsFraction point fraction ∧ chars = point ++ more := by
  unfold readFraction at hread
  split at hread
  · next rest =>
    by_cases hnone : rest.takeWhile Char.isDigit = []
    · simp [hnone] at hread
    · simp only [List.isEmpty_iff, hnone, if_false, Option.some.injEq, Prod.mk.injEq] at hread
      obtain ⟨rfl, rfl⟩ := hread
      refine ⟨_, .present (areDigits_takeWhile rest) hnone, ?_⟩
      rw [List.cons_append, List.takeWhile_append_dropWhile]
  · cases hread
    exact ⟨[], .absent, rfl⟩

theorem exists_magnitude_of_readMagnitude
    {chars rest : List Char} {value : Json} {negative : Bool}
    (hread : readMagnitude negative chars = some (value, rest)) :
    ∃ front mantissa exponent, IsMagnitude front mantissa exponent ∧ chars = front ++ rest ∧
      value = .number (if negative then -(mantissa : Int) else mantissa) exponent := by
  obtain ⟨hwhole, fraction, more, power, hfraction, hpower, hfits, rfl⟩ :=
    (readMagnitude_eq_some_iff rfl rfl).mp hread
  obtain ⟨point, hpoint, hmore⟩ := exists_point_of_readFraction hfraction
  obtain ⟨scale, hscale, rfl⟩ := exists_scale_of_readExponent hpower
  refine ⟨_, _, _, .intro hwhole hpoint hscale hfits, ?_, rfl⟩
  rw [List.append_assoc, List.append_assoc, ← hmore, List.takeWhile_append_dropWhile]

inductive IsScalar : List Char → Json → Prop
  | null : IsScalar ['n', 'u', 'l', 'l'] .null
  | boolTrue : IsScalar ['t', 'r', 'u', 'e'] (.bool true)
  | boolFalse : IsScalar ['f', 'a', 'l', 's', 'e'] (.bool false)
  | string {inside text : List Char} (hinside : AreInside inside text) :
      IsScalar ('"' :: (inside ++ ['"'])) (.string (String.ofList text))
  | number {chars : List Char} {mantissa : Nat} {exponent : Int}
      (hmagnitude : IsMagnitude chars mantissa exponent) :
      IsScalar chars (.number mantissa exponent)
  | negative {chars : List Char} {mantissa : Nat} {exponent : Int}
      (hmagnitude : IsMagnitude chars mantissa exponent) :
      IsScalar ('-' :: chars) (.number (-mantissa) exponent)

/-- A number begins with a digit. -/
theorem IsMagnitude.starts
    {chars : List Char} {mantissa : Nat} {exponent : Int}
    (hmagnitude : IsMagnitude chars mantissa exponent) :
    ∃ c more, chars = c :: more ∧ c.isDigit = true := by
  cases hmagnitude with
  | intro hwhole _ _ _ =>
      obtain ⟨c, others, rfl⟩ := List.exists_cons_of_ne_nil hwhole.ne_nil
      exact ⟨c, _, rfl, hwhole.areDigits c List.mem_cons_self⟩

theorem readScalar_of_isDigit
    {c : Char}
    (hdigit : c.isDigit = true)
    (rest : List Char) :
    readScalar (c :: rest) = readMagnitude false (c :: rest) := by
  unfold readScalar
  split
  · next heq => cases heq; cases hdigit
  · next heq => cases heq; cases hdigit
  · next heq => cases heq; cases hdigit
  · next heq => cases heq; cases hdigit
  · next heq => cases heq; cases hdigit
  · rfl

theorem readScalar_append
    {chars rest : List Char} {value : Json}
    (hscalar : IsScalar chars value)
    (hends : EndsValue rest) :
    readScalar (chars ++ rest) = some (value, rest) := by
  cases hscalar with
  | null => rfl
  | boolTrue => rfl
  | boolFalse => rfl
  | string hinside =>
      rw [List.cons_append, List.append_assoc, List.singleton_append, readScalar,
        readText_append hinside]
      rfl
  | number hmagnitude =>
      have hread := readMagnitude_append hmagnitude hends false
      obtain ⟨c, more, rfl, hdigit⟩ := hmagnitude.starts
      rw [List.cons_append, readScalar_of_isDigit hdigit]
      exact hread
  | negative hmagnitude =>
      rw [List.cons_append, readScalar]
      exact readMagnitude_append hmagnitude hends true

theorem exists_scalar_of_readScalar
    {chars rest : List Char} {value : Json}
    (hread : readScalar chars = some (value, rest)) :
    ∃ front, IsScalar front value ∧ chars = front ++ rest := by
  unfold readScalar at hread
  split at hread
  · cases hread
    exact ⟨_, .null, rfl⟩
  · cases hread
    exact ⟨_, .boolTrue, rfl⟩
  · cases hread
    exact ⟨_, .boolFalse, rfl⟩
  · obtain ⟨⟨text, _⟩, htext, hsame⟩ := Option.map_eq_some_iff.mp hread
    obtain ⟨rfl, rfl⟩ := Prod.mk.inj hsame
    obtain ⟨inside, hinside, rfl⟩ := exists_inside_of_readText htext
    exact ⟨_, .string hinside, by simp⟩
  · obtain ⟨front, mantissa, exponent, hfront, rfl, rfl⟩ :=
      exists_magnitude_of_readMagnitude hread
    exact ⟨_, .negative hfront, rfl⟩
  · obtain ⟨front, mantissa, exponent, hfront, rfl, rfl⟩ :=
      exists_magnitude_of_readMagnitude hread
    exact ⟨_, .number hfront, rfl⟩

end Json
end MintWatch
