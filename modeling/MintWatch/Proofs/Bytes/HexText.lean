import Mathlib
import MintWatch.Abi.Address
import MintWatch.Proofs.Bytes.Utf8Text
import MintWatch.Proofs.Fallible
/-!
# Texts that denote bytes

A text denotes bytes if, after at most one mark, it is their digits, in either case.
Reading a text gives exactly the bytes it denotes.  The readers go over the bytes of the
text; a character that takes several bytes is no digit, and neither is its first byte, so
it does not matter whether bytes or characters are counted.
-/

namespace MintWatch
namespace Hex

/-- Whether a text denotes bytes: it has two digits of either case for each byte, in
order, after at most one mark. -/
def Denotes (text : String) (bytes : Bytes) : Prop :=
  (dropMark text.toList).map Char.toLower = digits bytes

/-! ## Digits -/

theorem lt_of_digitValue?
    {code value : Nat}
    (hvalue : digitValue? code = some value) :
    value < 16 := by
  unfold digitValue? at hvalue
  split at hvalue
  · simp only [Option.some.injEq] at hvalue
    omega
  split at hvalue
  · simp only [Option.some.injEq] at hvalue
    omega
  split at hvalue
  · simp only [Option.some.injEq] at hvalue
    omega
  · cases hvalue

theorem digitValue?_of_wide
    {code : Nat}
    (hwide : 128 ≤ code) :
    digitValue? code = none := by
  unfold digitValue?
  rw [if_neg (by omega), if_neg (by omega), if_neg (by omega)]

theorem digitValue?_ascii :
    ∀ code < 128, ∀ value < 16,
      (digitValue? code = some value ↔ (Char.ofNat code).toLower = digit value) := by
  decide +kernel

theorem digit_ascii :
    ∀ value < 16, (digit value).toNat < 128 := by
  decide

theorem toLower_of_wide
    {c : Char}
    (hwide : 128 ≤ c.toNat) :
    c.toLower = c := by
  have hlarge : ¬ c.val ≤ 90 := by
    intro hle
    have hnat : c.toNat ≤ 90 := hle
    omega
  unfold Char.toLower
  rw [dif_neg]
  exact fun hupper => hlarge hupper.2

theorem digitValue?_eq_some_iff
    (c : Char) {value : Nat}
    (hsmall : value < 16) :
    digitValue? c.toNat = some value ↔ c.toLower = digit value := by
  by_cases hascii : c.toNat < 128
  · have hcase := digitValue?_ascii c.toNat hascii value hsmall
    rwa [Char.ofNat_toNat] at hcase
  · have hdigit := digit_ascii value hsmall
    rw [digitValue?_of_wide (by omega), toLower_of_wide (by omega)]
    constructor
    · intro hnone
      cases hnone
    · intro hsame
      rw [hsame] at hascii
      omega

theorem digitValue?_toLower_ascii :
    ∀ code < 128, digitValue? (Char.ofNat code).toLower.toNat = digitValue? code := by
  decide +kernel

theorem digitValue?_toLower
    (c : Char) :
    digitValue? c.toLower.toNat = digitValue? c.toNat := by
  by_cases hascii : c.toNat < 128
  · have hcase := digitValue?_toLower_ascii c.toNat hascii
    rwa [Char.ofNat_toNat] at hcase
  · rw [toLower_of_wide (by omega)]

theorem digits_eq_map_nibbles
    (bytes : Bytes) :
    digits bytes = (Address.nibbles bytes).map digit := by
  induction bytes with
  | nil => rfl
  | cons byte rest ih =>
      rw [digits, ih]
      rfl

theorem lt_of_mem_nibbles
    {bytes : Bytes} {value : Nat}
    (hmember : value ∈ Address.nibbles bytes) :
    value < 16 := by
  unfold Address.nibbles at hmember
  obtain ⟨byte, -, hvalue⟩ := List.mem_flatMap.mp hmember
  have hlt := byte.toNat_lt
  simp only [List.mem_cons, List.not_mem_nil, or_false] at hvalue
  omega

theorem length_nibbles
    (bytes : Bytes) :
    (Address.nibbles bytes).length = 2 * bytes.length := by
  induction bytes with
  | nil => rfl
  | cons byte rest ih =>
      change (Address.nibbles rest).length + 1 + 1 = 2 * (rest.length + 1)
      omega

theorem map_digitValue?_eq_iff
    (chars : List Char) {values : List Nat}
    (hsmall : ∀ value ∈ values, value < 16) :
    chars.map (fun c => digitValue? c.toNat) = values.map some ↔
      chars.map Char.toLower = values.map digit := by
  induction chars generalizing values with
  | nil =>
      cases values <;> simp
  | cons c rest ih =>
      cases values with
      | nil => simp
      | cons value others =>
          rw [List.forall_mem_cons] at hsmall
          simp only [List.map_cons, List.cons.injEq, digitValue?_eq_some_iff c hsmall.1,
            ih hsmall.2]

theorem toLower_digit :
    ∀ value < 16, (digit value).toLower = digit value := by
  decide

theorem denotes_encodeMarked
    (bytes : Bytes) :
    Denotes (encodeMarked bytes) bytes := by
  have htext : (encodeMarked bytes).toList = '0' :: 'x' :: digits bytes := by
    simp [encodeMarked, encode, String.toList_append]
  unfold Denotes
  rw [htext, dropMark, digits_eq_map_nibbles, List.map_map]
  apply List.map_congr_left
  intro value hmember
  exact toLower_digit value (lt_of_mem_nibbles hmember)

/-! ## The bytes of a text -/

theorem exists_wide_front
    {c : Char}
    (hwide : 128 ≤ c.toNat) :
    ∃ first others, String.utf8EncodeChar c = first :: others ∧ 128 ≤ first.toNat := by
  obtain ⟨first, others, hencode, hfront⟩ := Utf8.front_utf8EncodeChar c []
  refine ⟨first, others, hencode, ?_⟩
  by_contra hsmall
  rw [Utf8.front_of_one (by omega)] at hfront
  have hchar : Char.ofNat first.toNat = c := congrArg Prod.fst hfront
  have hcode : (Char.ofNat first.toNat).toNat = first.toNat :=
    Utf8.toNat_charOfNat (by omega)
  rw [hchar] at hcode
  omega

theorem map_digitValue?_encodeChars
    (chars : List Char) (values : List Nat) :
    (Utf8.encodeChars chars).map (fun byte => digitValue? byte.toNat) = values.map some ↔
      chars.map (fun c => digitValue? c.toNat) = values.map some := by
  induction chars generalizing values with
  | nil => rfl
  | cons c rest ih =>
      have hsplit :
          Utf8.encodeChars (c :: rest) = String.utf8EncodeChar c ++ Utf8.encodeChars rest := by
        rw [Utf8.encodeChars, List.flatMap_cons]
        rfl
      rw [hsplit]
      by_cases hascii : c.toNat ≤ 127
      · rw [Utf8.encode_one hascii, List.singleton_append]
        simp only [List.map_cons, Utf8.toNat_ofNat_of_lt (show c.toNat < 256 by omega)]
        cases values with
        | nil => simp
        | cons value others => simp only [List.map_cons, List.cons.injEq, ih]
      · obtain ⟨first, others, hencode, hwide⟩ := exists_wide_front (show 128 ≤ c.toNat by omega)
        rw [hencode]
        simp only [List.cons_append, List.map_cons, digitValue?_of_wide hwide,
          digitValue?_of_wide (show 128 ≤ c.toNat by omega)]
        cases values <;> simp

theorem decodeFrom_eq_ok_iff
    {position : Nat} {data bytes : Bytes}
    (heven : data.length % 2 = 0) :
    decodeFrom position data = .ok bytes ↔
      data.map (fun byte => digitValue? byte.toNat) = (Address.nibbles bytes).map some := by
  fun_induction decodeFrom position data generalizing bytes with
  | case1 position high low rest hhigh =>
      cases bytes with
      | nil => simp [Address.nibbles]
      | cons byte others => simp [Address.nibbles, hhigh]
  | case2 position high low rest h hhigh hlow =>
      cases bytes with
      | nil => simp [Address.nibbles]
      | cons byte others => simp [Address.nibbles, hlow]
  | case3 position high low rest h hhigh l hlow ih =>
      have hrest : rest.length % 2 = 0 := by
        simp only [List.length_cons] at heven
        omega
      have hh := lt_of_digitValue? hhigh
      have hl := lt_of_digitValue? hlow
      have hbyte := Utf8.toNat_ofNat_of_lt (show 16 * h + l < 256 by omega)
      rw [map_eq_ok_iff]
      simp only [ih hrest, List.map_cons, hhigh, hlow]
      constructor
      · intro hfound
        obtain ⟨others, hothers, hbytes⟩ := hfound
        rw [← hbytes, hothers]
        change _ = some ((UInt8.ofNat (16 * h + l)).toNat / 16) ::
          some ((UInt8.ofNat (16 * h + l)).toNat % 16) :: (Address.nibbles others).map some
        rw [hbyte, show (16 * h + l) / 16 = h by omega, show (16 * h + l) % 16 = l by omega]
      · intro hnibbles
        cases bytes with
        | nil => simp [Address.nibbles] at hnibbles
        | cons byte others =>
            change _ = some (byte.toNat / 16) :: some (byte.toNat % 16) ::
              (Address.nibbles others).map some at hnibbles
            simp only [List.cons.injEq, Option.some.injEq] at hnibbles
            refine ⟨others, hnibbles.2.2, ?_⟩
            have hsame : 16 * h + l = byte.toNat := by omega
            rw [hsame, UInt8.ofNat_toNat]
  | case4 data position hshort =>
      obtain rfl : data = [] := by
        rcases data with _ | ⟨high, _ | ⟨low, rest⟩⟩
        · rfl
        · simp at heven
        · exact absurd rfl (hshort high low rest)
      cases bytes with
      | nil => simp [Address.nibbles]
      | cons byte others => simp [Address.nibbles]

/-! ## Reading -/

section Reading

variable {chars : List Char} {bytes : Bytes}

theorem decodeFrom_encodeChars_eq_ok_iff
    {position : Nat}
    (heven : (Utf8.encodeChars chars).length % 2 = 0) :
    decodeFrom position (Utf8.encodeChars chars) = .ok bytes ↔
      chars.map Char.toLower = digits bytes := by
  rw [decodeFrom_eq_ok_iff heven, map_digitValue?_encodeChars,
    map_digitValue?_eq_iff chars fun value => lt_of_mem_nibbles, digits_eq_map_nibbles]

theorem length_encodeChars_of_digits
    (hdigits : chars.map Char.toLower = digits bytes) :
    (Utf8.encodeChars chars).length = 2 * bytes.length := by
  rw [digits_eq_map_nibbles, ← map_digitValue?_eq_iff chars fun value => lt_of_mem_nibbles,
    ← map_digitValue?_encodeChars] at hdigits
  have hlength := congrArg List.length hdigits
  simpa [length_nibbles] using hlength

theorem decode_eq_ok_iff :
    decode (Utf8.encodeChars chars) = .ok bytes ↔ chars.map Char.toLower = digits bytes := by
  unfold decode
  split
  · rename_i hodd
    constructor
    · intro hfault
      cases hfault
    · intro hdigits
      have hlength := length_encodeChars_of_digits hdigits
      omega
  · rename_i heven
    rw [mapError_eq_ok_iff]
    exact decodeFrom_encodeChars_eq_ok_iff (by omega)

theorem decodeExact_eq_ok_iff
    {n : Nat} {octets : Octets n} :
    decodeExact n (Utf8.encodeChars chars) = .ok octets ↔
      chars.map Char.toLower = digits octets.toList := by
  unfold decodeExact
  split
  · rename_i hodd
    constructor
    · intro hfault
      cases hfault
    · intro hdigits
      have hlength := length_encodeChars_of_digits hdigits
      omega
  split
  · rename_i hwrong
    constructor
    · intro hfault
      cases hfault
    · intro hdigits
      have hlength := length_encodeChars_of_digits hdigits
      rw [octets.length_toList] at hlength
      exact absurd hlength hwrong
  · rename_i heven _
    have hdigits : decodeFrom 0 (Utf8.encodeChars chars) = .ok octets.toList ↔ _ :=
      decodeFrom_encodeChars_eq_ok_iff (by omega)
    rw [← hdigits]
    cases decodeFrom 0 (Utf8.encodeChars chars) with
    | error fault => simp
    | ok found =>
        simp only [Except.ok.injEq]
        rw [eq_comm (a := found), ← Octets.ofList?_eq_some]
        cases Octets.ofList? n found <;> simp

end Reading
end Hex

theorem Octets.parse_eq_ok_iff
    {n : Nat} {text : String} {octets : Octets n} :
    Octets.parse n text = .ok octets ↔ Hex.Denotes text octets.toList :=
  Hex.decodeExact_eq_ok_iff

theorem Octets.parse_hex
    {n : Nat} (octets : Octets n) :
    Octets.parse n octets.hex = .ok octets :=
  Octets.parse_eq_ok_iff.mpr (Hex.denotes_encodeMarked octets.toList)

end MintWatch
