import Mathlib
import MintWatch.Proofs.Chain.TransactionMembers
/-!
# Texts that write numbers

The readers of quantities take exactly the texts that write a number of few enough bits,
and give that number.  What has been read so far is a number whose digits are the digits
read, so the digits of the whole text are found by going on from there; zeros in front are
the one case in which nothing has been written yet.  A number that is read with some bits
is read with any bits that it fits, and is too large for all others, so nothing is ever cut
off.
-/

namespace MintWatch
namespace Quantity

/-- Whether a text writes a number: at most one mark, at most one plus sign, and then the
hexadecimal digits of the number in letters of either case, with any number of zeros in
front. -/
def IsWritten (number : Nat) (text : String) : Prop :=
  ∃ mark ∈ ["", "0x", "0X"], ∃ sign ∈ ["", "+"], ∃ digits zeros,
    text.toList = mark.toList ++ (sign.toList ++ digits) ∧
      digits.map Char.toLower = List.replicate zeros '0' ++ Nat.toDigits 16 number

/-! ## What digits are read to -/

theorem digitChar_eq_digit :
    ∀ value < 16, Nat.digitChar value = Hex.digit value := by
  decide

theorem toLower_of_digitValue?
    {c : Char} {value : Nat}
    (hvalue : Hex.digitValue? c.toNat = some value) :
    c.toLower = Nat.digitChar value := by
  have hsmall := Hex.lt_of_digitValue? hvalue
  rw [digitChar_eq_digit value hsmall]
  exact (Hex.digitValue?_eq_some_iff c hsmall).mp hvalue

theorem readDigits_cons_eq_ok_iff
    {bits total number : Nat} {c : Char} {rest : List Char} :
    readDigits bits total (c :: rest) = .ok number ↔
      ∃ value, Hex.digitValue? c.toNat = some value ∧ total * 16 + value < 2 ^ bits ∧
        readDigits bits (total * 16 + value) rest = .ok number := by
  rw [readDigits]
  cases Hex.digitValue? c.toNat with
  | none => simp
  | some value =>
      simp only [Option.some.injEq, exists_eq_left']
      split
      · rename_i hfits
        exact (and_iff_right hfits).symm
      · rename_i hlarge
        simp only [reduceCtorEq, false_iff, not_and]
        exact fun hfits => absurd hfits hlarge

theorem toDigits_of_readDigits
    {bits total number : Nat} {chars : List Char}
    (hpos : 0 < total)
    (hread : readDigits bits total chars = .ok number) :
    Nat.toDigits 16 number = Nat.toDigits 16 total ++ chars.map Char.toLower := by
  induction chars generalizing total with
  | nil =>
      rw [readDigits, Except.ok.injEq] at hread
      rw [hread, List.map_nil, List.append_nil]
  | cons c rest ih =>
      obtain ⟨value, hvalue, -, hrest⟩ := readDigits_cons_eq_ok_iff.mp hread
      have hsmall := Hex.lt_of_digitValue? hvalue
      have hlonger : Nat.toDigits 16 (total * 16 + value) =
          Nat.toDigits 16 total ++ [Nat.digitChar value] := by
        rw [Nat.mul_comm, ← Nat.toDigits_append_toDigits (by decide) hpos hsmall,
          Nat.toDigits_of_lt_base hsmall]
      rw [ih (by omega) hrest, hlonger, List.map_cons, toLower_of_digitValue? hvalue,
        List.append_assoc, List.singleton_append]

theorem exists_zeros_of_readDigits
    {bits number : Nat} {chars : List Char}
    (hsome : chars ≠ [])
    (hread : readDigits bits 0 chars = .ok number) :
    ∃ zeros, chars.map Char.toLower =
      List.replicate zeros '0' ++ Nat.toDigits 16 number := by
  induction chars with
  | nil => exact absurd rfl hsome
  | cons c rest ih =>
      obtain ⟨value, hvalue, -, hrest⟩ := readDigits_cons_eq_ok_iff.mp hread
      have hsmall := Hex.lt_of_digitValue? hvalue
      have hlower := toLower_of_digitValue? hvalue
      rw [Nat.zero_mul, Nat.zero_add] at hrest
      rcases Nat.eq_zero_or_pos value with rfl | hpos
      · by_cases hlast : rest = []
        · -- The last zero is the digit of the number zero and not one in front of it.
          subst hlast
          rw [readDigits, Except.ok.injEq] at hrest
          subst hrest
          exact ⟨0, by rw [List.map_cons, hlower]; rfl⟩
        · obtain ⟨zeros, hzeros⟩ := ih hlast hrest
          refine ⟨zeros + 1, ?_⟩
          rw [List.map_cons, hlower, hzeros, List.replicate_succ]
          rfl
      · have hdigits := toDigits_of_readDigits hpos hrest
        refine ⟨0, ?_⟩
        rw [hdigits, Nat.toDigits_of_lt_base hsmall, List.map_cons, hlower]
        rfl

theorem lt_of_readDigits
    {bits total number : Nat} {chars : List Char}
    (hfits : total < 2 ^ bits)
    (hread : readDigits bits total chars = .ok number) :
    number < 2 ^ bits := by
  induction chars generalizing total with
  | nil =>
      rw [readDigits, Except.ok.injEq] at hread
      rwa [← hread]
  | cons c rest ih =>
      obtain ⟨value, -, hnext, hrest⟩ := readDigits_cons_eq_ok_iff.mp hread
      exact ih hnext hrest

/-- Digits that can be read with more bits are refused for nothing but their value. -/
theorem readDigits_eq_tooLarge
    {bits wider total number : Nat} {chars : List Char}
    (hfits : total < 2 ^ bits)
    (hread : readDigits wider total chars = .ok number)
    (hlarge : 2 ^ bits ≤ number) :
    readDigits bits total chars = .error .tooLarge := by
  induction chars generalizing total with
  | nil =>
      rw [readDigits, Except.ok.injEq] at hread
      omega
  | cons c rest ih =>
      obtain ⟨value, hvalue, -, hrest⟩ := readDigits_cons_eq_ok_iff.mp hread
      rw [readDigits, hvalue]
      by_cases hnext : total * 16 + value < 2 ^ bits
      · exact (if_pos hnext).trans (ih hnext hrest)
      · exact if_neg hnext

/-! ## Mark and sign -/

theorem exists_mark
    (chars : List Char) :
    ∃ mark ∈ ["", "0x", "0X"], chars = mark.toList ++ Hex.dropMark chars := by
  fun_cases Hex.dropMark chars with
  | case1 rest => exact ⟨"0x", by simp, rfl⟩
  | case2 rest => exact ⟨"0X", by simp, rfl⟩
  | case3 => exact ⟨"", by simp, rfl⟩

theorem readUnmarked_plus
    {digits : List Char}
    (bits : Nat)
    (hsome : digits ≠ []) :
    readUnmarked bits ('+' :: digits) = readDigits bits 0 digits := by
  cases digits with
  | nil => exact absurd rfl hsome
  | cons c rest => rfl

theorem readUnmarked_of_ne_plus
    {c : Char}
    (bits : Nat) (rest : List Char)
    (hplus : c ≠ '+') :
    readUnmarked bits (c :: rest) = readDigits bits 0 (c :: rest) := by
  unfold readUnmarked
  split
  · contradiction
  · rename_i hsign
    exact absurd (List.cons.inj hsign).1 hplus
  · rename_i hsign
    exact absurd (List.cons.inj hsign).1 hplus
  · rfl

theorem exists_sign_of_readUnmarked
    {bits number : Nat} {chars : List Char}
    (hread : readUnmarked bits chars = .ok number) :
    ∃ sign ∈ ["", "+"], ∃ digits, chars = sign.toList ++ digits ∧ digits ≠ [] ∧
      readDigits bits 0 digits = .ok number := by
  cases chars with
  | nil => cases hread
  | cons c rest =>
      by_cases hplus : c = '+'
      · subst hplus
        have hsome : rest ≠ [] := by
          rintro rfl
          cases hread
        rw [readUnmarked_plus bits hsome] at hread
        exact ⟨"+", by simp, rest, rfl, hsome, hread⟩
      · rw [readUnmarked_of_ne_plus bits rest hplus] at hread
        exact ⟨"", by simp, c :: rest, rfl, List.cons_ne_nil c rest, hread⟩

theorem readUnmarked_eq_readDigits
    {bits wider number : Nat} {sign : String} {digits : List Char}
    (hsign : sign ∈ ["", "+"])
    (hsome : digits ≠ [])
    (hread : readDigits wider 0 digits = .ok number) :
    readUnmarked bits (sign.toList ++ digits) = readDigits bits 0 digits := by
  obtain ⟨c, rest, rfl⟩ := List.exists_cons_of_ne_nil hsome
  have hplus : c ≠ '+' := by
    rintro rfl
    obtain ⟨value, hvalue, -⟩ := readDigits_cons_eq_ok_iff.mp hread
    cases hvalue
  simp only [List.mem_cons, List.not_mem_nil, or_false] at hsign
  rcases hsign with rfl | rfl
  · exact readUnmarked_of_ne_plus bits rest hplus
  · exact readUnmarked_plus bits hsome

/-- Digits that can be read do not begin with a mark. -/
theorem dropMark_of_readDigits
    {bits number : Nat} {digits : List Char}
    (hread : readDigits bits 0 digits = .ok number) :
    Hex.dropMark digits = digits := by
  have hsecond : ∀ {first second : Char} {rest : List Char},
      digits = first :: second :: rest →
        ∃ value, Hex.digitValue? second.toNat = some value := by
    rintro first second rest rfl
    obtain ⟨_, -, -, hrest⟩ := readDigits_cons_eq_ok_iff.mp hread
    obtain ⟨value, hvalue, -⟩ := readDigits_cons_eq_ok_iff.mp hrest
    exact ⟨value, hvalue⟩
  fun_cases Hex.dropMark digits with
  | case1 rest =>
      obtain ⟨value, hvalue⟩ := hsecond rfl
      cases hvalue
  | case2 rest =>
      obtain ⟨value, hvalue⟩ := hsecond rfl
      cases hvalue
  | case3 => rfl

/-! ## Readers and written numbers -/

theorem isWritten_of_read
    {bits number : Nat} {text : String}
    (hread : read bits text = .ok number) :
    IsWritten number text ∧ number < 2 ^ bits := by
  obtain ⟨mark, hmark, htext⟩ := exists_mark text.toList
  obtain ⟨sign, hsign, digits, hunmarked, hsome, hdigits⟩ := exists_sign_of_readUnmarked hread
  obtain ⟨zeros, hzeros⟩ := exists_zeros_of_readDigits hsome hdigits
  rw [hunmarked] at htext
  have hfits := lt_of_readDigits (Nat.two_pow_pos bits) hdigits
  exact ⟨⟨mark, hmark, sign, hsign, digits, zeros, htext, hzeros⟩, hfits⟩

theorem read_of_isWritten
    {number : Nat} {text : String}
    (hwritten : IsWritten number text) :
    (∀ bits, number < 2 ^ bits → read bits text = .ok number) ∧
      ∀ bits, 2 ^ bits ≤ number → read bits text = .error .tooLarge := by
  obtain ⟨mark, hmark, sign, hsign, digits, zeros, htext, hdigits⟩ := hwritten
  have hread : ∀ bits, number < 2 ^ bits → readDigits bits 0 digits = .ok number := by
    intro bits hfits
    rw [← readDigits_map_toLower, hdigits, readDigits_zeros, readDigits_toDigits hfits]
  have hwide : readDigits number 0 digits = .ok number := hread number Nat.lt_two_pow_self
  have hsome : digits ≠ [] := by
    rintro rfl
    exact Nat.toDigits_ne_nil (List.append_eq_nil_iff.mp hdigits.symm).2
  have hdrop : Hex.dropMark text.toList = sign.toList ++ digits := by
    rw [htext]
    simp only [List.mem_cons, List.not_mem_nil, or_false] at hmark hsign
    rcases hmark with rfl | rfl | rfl
    · rcases hsign with rfl | rfl
      · exact dropMark_of_readDigits hwide
      · rfl
    · rfl
    · rfl
  have hsame : ∀ bits, read bits text = readDigits bits 0 digits := by
    intro bits
    rw [read, hdrop, readUnmarked_eq_readDigits hsign hsome hwide]
  constructor
  · intro bits hfits
    rw [hsame, hread bits hfits]
  · intro bits hlarge
    rw [hsame, readDigits_eq_tooLarge (Nat.two_pow_pos bits) hwide hlarge]

theorem IsWritten.unique
    {first second : Nat} {text : String}
    (hfirst : IsWritten first text)
    (hsecond : IsWritten second text) :
    first = second := by
  have hbound : first + second < 2 ^ (first + second) := Nat.lt_two_pow_self
  have hone := (read_of_isWritten hfirst).1 (first + second) (by omega)
  have hother := (read_of_isWritten hsecond).1 (first + second) (by omega)
  exact Except.ok.inj (hone.symm.trans hother)

end Quantity

namespace Transaction

theorem readQuantity_follows_grammar
    (bits : Nat) (text : String) :
    (∀ number, readQuantity bits text = .ok number ↔
        Quantity.IsWritten number text ∧ number < 2 ^ bits) ∧
      (∀ number, Quantity.IsWritten number text → 2 ^ bits ≤ number →
        readQuantity bits text = .error (.decode (.badQuantity text .tooLarge))) ∧
      ((∃ number, Quantity.IsWritten number text) ∨
        ∃ fault, readQuantity bits text = .error (.decode (.badQuantity text fault))) ∧
      ∀ other first second, readQuantity bits text = .ok first →
        readQuantity other text = .ok second → first = second := by
  have haccepts : ∀ bits number, readQuantity bits text = .ok number ↔
      Quantity.IsWritten number text ∧ number < 2 ^ bits := by
    intro bits number
    rw [readQuantity, mapError_eq_ok_iff]
    constructor
    · exact Quantity.isWritten_of_read
    · intro hwritten
      exact (Quantity.read_of_isWritten hwritten.1).1 bits hwritten.2
  refine ⟨haccepts bits, ?_, ?_, ?_⟩
  · intro number hwritten hlarge
    rw [readQuantity, (Quantity.read_of_isWritten hwritten).2 bits hlarge]
    rfl
  · cases hread : Quantity.read bits text with
    | ok number => exact Or.inl ⟨number, (Quantity.isWritten_of_read hread).1⟩
    | error fault => exact Or.inr ⟨fault, by rw [readQuantity, hread]; rfl⟩
  · intro other first second hfirst hsecond
    have hwritten := ((haccepts bits first).mp hfirst).1
    exact hwritten.unique ((haccepts other second).mp hsecond).1

/-! A number that takes one bit more than there are, written with zeros in front, and with
all that may stand before it. -/

theorem readQuantity_follows_grammar_wide :
    Quantity.IsWritten (2 ^ 64) "0X+00010000000000000000" ∧
      2 ^ 64 < 2 ^ 128 ∧
      readQuantity 128 "0X+00010000000000000000" = .ok (2 ^ 64) ∧
      readQuantity 64 "0X+00010000000000000000" =
        .error (.decode (.badQuantity "0X+00010000000000000000" .tooLarge)) := by
  have hwritten : Quantity.IsWritten (2 ^ 64) "0X+00010000000000000000" :=
    ⟨"0X", by decide, "+", by decide, "00010000000000000000".toList, 3, by decide,
      by decide +kernel⟩
  have hfits : 2 ^ 64 < 2 ^ 128 := by
    norm_num
  obtain ⟨haccepts, -⟩ := readQuantity_follows_grammar 128 "0X+00010000000000000000"
  obtain ⟨-, hrefuses, -⟩ := readQuantity_follows_grammar 64 "0X+00010000000000000000"
  exact ⟨hwritten, hfits, (haccepts _).mpr ⟨hwritten, hfits⟩, hrefuses _ hwritten le_rfl⟩

end Transaction
end MintWatch
