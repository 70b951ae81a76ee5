import Mathlib
import MintWatch.Bytes.Utf8
/-!
# Text and its UTF-8 bytes

Reading text that was written gives the text back, whatever follows it.  Reading bytes
that are no text loses something, but only where a replacement character shows: text
without replacement characters has exactly the bytes it was read from.  Both directions
come from the front of a byte string, where one character is read.
-/

namespace MintWatch
namespace Utf8

theorem isContinuation_iff
    (byte : UInt8) :
    isContinuation byte = true ↔ 128 ≤ byte.toNat ∧ byte.toNat ≤ 191 := by
  simp [isContinuation, UInt8.le_iff_toNat_le]

theorem startsThree_iff
    (first second : UInt8) :
    startsThree first second = true ↔
      (first.toNat = 224 ∧ 160 ≤ second.toNat ∧ second.toNat ≤ 191) ∨
        (225 ≤ first.toNat ∧ first.toNat ≤ 236 ∧ 128 ≤ second.toNat ∧ second.toNat ≤ 191) ∨
        (first.toNat = 237 ∧ 128 ≤ second.toNat ∧ second.toNat ≤ 159) ∨
        (238 ≤ first.toNat ∧ first.toNat ≤ 239 ∧ 128 ≤ second.toNat ∧ second.toNat ≤ 191) := by
  simp only [startsThree, Bool.or_eq_true, Bool.and_eq_true, beq_iff_eq, decide_eq_true_eq,
    isContinuation_iff, UInt8.le_iff_toNat_le, ← UInt8.toNat_inj, UInt8.reduceToNat]
  tauto

theorem startsFour_iff
    (first second : UInt8) :
    startsFour first second = true ↔
      (first.toNat = 240 ∧ 144 ≤ second.toNat ∧ second.toNat ≤ 191) ∨
        (241 ≤ first.toNat ∧ first.toNat ≤ 243 ∧ 128 ≤ second.toNat ∧ second.toNat ≤ 191) ∨
        (first.toNat = 244 ∧ 128 ≤ second.toNat ∧ second.toNat ≤ 143) := by
  simp only [startsFour, Bool.or_eq_true, Bool.and_eq_true, beq_iff_eq, decide_eq_true_eq,
    isContinuation_iff, UInt8.le_iff_toNat_le, ← UInt8.toNat_inj, UInt8.reduceToNat]
  tauto

/-! ## The front of a byte string -/

section Front

variable {first second third fourth : UInt8} {rest : Bytes}

theorem front_of_one
    (hfirst : first.toNat < 128) :
    front first rest = (Char.ofNat first.toNat, 0) := by
  have hlow : first < 0x80 := UInt8.lt_iff_toNat_lt.mpr hfirst
  simp [front, hlow]

theorem front_of_two
    (hlow : 194 ≤ first.toNat)
    (hhigh : first.toNat ≤ 223)
    (hsecond : isContinuation second = true) :
    front first (second :: rest) =
      (Char.ofNat (first.toNat % 32 * 64 + payload second), 1) := by
  have hone : ¬ first < 0x80 := by
    simp only [UInt8.lt_iff_toNat_lt, UInt8.reduceToNat]
    omega
  have htwo : (0xC2 ≤ first && first ≤ 0xDF) = true := by
    simp [UInt8.le_iff_toNat_le, hlow, hhigh]
  simp [front, hone, htwo, hsecond]

theorem front_of_three
    (hfirst : startsThree first second = true)
    (hthird : isContinuation third = true) :
    front first (second :: third :: rest) =
      (Char.ofNat (first.toNat % 16 * 4096 + payload second * 64 + payload third), 2) := by
  have hrange := (startsThree_iff first second).mp hfirst
  have hone : ¬ first < 0x80 := by
    simp only [UInt8.lt_iff_toNat_lt, UInt8.reduceToNat]
    omega
  have htwo : (0xC2 ≤ first && first ≤ 0xDF) = false := by
    simp only [Bool.and_eq_false_iff, decide_eq_false_iff_not, UInt8.le_iff_toNat_le,
      UInt8.reduceToNat]
    omega
  have hthree : (0xE0 ≤ first && first ≤ 0xEF) = true := by
    simp only [Bool.and_eq_true, decide_eq_true_eq, UInt8.le_iff_toNat_le, UInt8.reduceToNat]
    omega
  simp [front, hone, htwo, hthree, hfirst, hthird]

theorem front_of_four
    (hfirst : startsFour first second = true)
    (hthird : isContinuation third = true)
    (hfourth : isContinuation fourth = true) :
    front first (second :: third :: fourth :: rest) =
      (Char.ofNat (first.toNat % 8 * 262144 + payload second * 4096 + payload third * 64
        + payload fourth), 3) := by
  have hrange := (startsFour_iff first second).mp hfirst
  have hone : ¬ first < 0x80 := by
    simp only [UInt8.lt_iff_toNat_lt, UInt8.reduceToNat]
    omega
  have htwo : (0xC2 ≤ first && first ≤ 0xDF) = false := by
    simp only [Bool.and_eq_false_iff, decide_eq_false_iff_not, UInt8.le_iff_toNat_le,
      UInt8.reduceToNat]
    omega
  have hthree : (0xE0 ≤ first && first ≤ 0xEF) = false := by
    simp only [Bool.and_eq_false_iff, decide_eq_false_iff_not, UInt8.le_iff_toNat_le,
      UInt8.reduceToNat]
    omega
  have hfour : (0xF0 ≤ first && first ≤ 0xF4) = true := by
    simp only [Bool.and_eq_true, decide_eq_true_eq, UInt8.le_iff_toNat_le, UInt8.reduceToNat]
    omega
  simp [front, hone, htwo, hthree, hfour, hfirst, hthird, hfourth]

end Front

/-! ## The bytes of a character -/

theorem toNat_ofNat_of_lt
    {number : Nat}
    (hlt : number < 256) :
    (UInt8.ofNat number).toNat = number := by
  rw [UInt8.toNat_ofNat']
  exact Nat.mod_eq_of_lt hlt

theorem toNat_charOfNat
    {code : Nat}
    (hvalid : code < 0xD800 ∨ 0xDFFF < code ∧ code < 0x110000) :
    (Char.ofNat code).toNat = code := by
  unfold Char.ofNat
  rw [dif_pos hvalid]
  simp [Char.ofNatAux, Char.toNat]

section Encode

variable {c : Char}

theorem encode_one
    (hhigh : c.toNat ≤ 127) :
    String.utf8EncodeChar c = [UInt8.ofNat c.toNat] := by
  unfold String.utf8EncodeChar
  exact if_pos hhigh

theorem encode_two
    (hlow : 128 ≤ c.toNat)
    (hhigh : c.toNat ≤ 2047) :
    String.utf8EncodeChar c =
      [UInt8.ofNat (c.toNat / 64 + 192), UInt8.ofNat (c.toNat % 64 + 128)] := by
  have hone : ¬ c.val.toNat ≤ 0x7F := by
    change ¬ c.toNat ≤ 0x7F
    omega
  have htwo : c.val.toNat ≤ 0x7FF := hhigh
  have hfront : c.toNat / 64 % 32 = c.toNat / 64 := Nat.mod_eq_of_lt (by omega)
  unfold String.utf8EncodeChar
  simp only [hone, htwo, if_true, if_false]
  change [UInt8.ofNat (c.toNat / 64 % 32 + 192), _] = _
  rw [hfront]
  rfl

theorem encode_three
    (hlow : 2048 ≤ c.toNat)
    (hhigh : c.toNat ≤ 65535) :
    String.utf8EncodeChar c =
      [UInt8.ofNat (c.toNat / 4096 + 224), UInt8.ofNat (c.toNat / 64 % 64 + 128),
        UInt8.ofNat (c.toNat % 64 + 128)] := by
  have hone : ¬ c.val.toNat ≤ 0x7F := by
    change ¬ c.toNat ≤ 0x7F
    omega
  have htwo : ¬ c.val.toNat ≤ 0x7FF := by
    change ¬ c.toNat ≤ 0x7FF
    omega
  have hthree : c.val.toNat ≤ 0xFFFF := hhigh
  have hfront : c.toNat / 4096 % 16 = c.toNat / 4096 := Nat.mod_eq_of_lt (by omega)
  unfold String.utf8EncodeChar
  simp only [hone, htwo, hthree, if_true, if_false]
  change [UInt8.ofNat (c.toNat / 4096 % 16 + 224), _, _] = _
  rw [hfront]
  rfl

theorem encode_four
    (hlow : 65536 ≤ c.toNat)
    (hhigh : c.toNat < 1114112) :
    String.utf8EncodeChar c =
      [UInt8.ofNat (c.toNat / 262144 + 240), UInt8.ofNat (c.toNat / 4096 % 64 + 128),
        UInt8.ofNat (c.toNat / 64 % 64 + 128), UInt8.ofNat (c.toNat % 64 + 128)] := by
  have hone : ¬ c.val.toNat ≤ 0x7F := by
    change ¬ c.toNat ≤ 0x7F
    omega
  have htwo : ¬ c.val.toNat ≤ 0x7FF := by
    change ¬ c.toNat ≤ 0x7FF
    omega
  have hthree : ¬ c.val.toNat ≤ 0xFFFF := by
    change ¬ c.toNat ≤ 0xFFFF
    omega
  have hfront : c.toNat / 262144 % 8 = c.toNat / 262144 := Nat.mod_eq_of_lt (by omega)
  unfold String.utf8EncodeChar
  simp only [hone, htwo, hthree, if_false]
  change [UInt8.ofNat (c.toNat / 262144 % 8 + 240), _, _, _] = _
  rw [hfront]
  rfl

end Encode

/-! ## Reading what was written -/

/-- The front of a written character is the character, and nothing behind it counts. -/
theorem front_utf8EncodeChar
    (c : Char) (rest : Bytes) :
    ∃ first others, String.utf8EncodeChar c = first :: others ∧
      front first (others ++ rest) = (c, others.length) := by
  have hvalid : c.toNat < 0xD800 ∨ 0xDFFF < c.toNat ∧ c.toNat < 0x110000 := c.valid
  have hlast := toNat_ofNat_of_lt (show c.toNat % 64 + 128 < 256 by omega)
  have hmiddle := toNat_ofNat_of_lt (show c.toNat / 64 % 64 + 128 < 256 by omega)
  have hearly := toNat_ofNat_of_lt (show c.toNat / 4096 % 64 + 128 < 256 by omega)
  by_cases hone : c.toNat ≤ 127
  · have hfirst := toNat_ofNat_of_lt (show c.toNat < 256 by omega)
    refine ⟨_, _, encode_one hone, ?_⟩
    rw [front_of_one (by omega), hfirst, Char.ofNat_toNat]
    rfl
  by_cases htwo : c.toNat ≤ 2047
  · have hfirst := toNat_ofNat_of_lt (show c.toNat / 64 + 192 < 256 by omega)
    refine ⟨_, _, encode_two (by omega) htwo, ?_⟩
    rw [List.singleton_append, front_of_two (by omega) (by omega)
      ((isContinuation_iff _).mpr (by omega))]
    have hcode :
        (c.toNat / 64 + 192) % 32 * 64 + (c.toNat % 64 + 128) % 64 = c.toNat := by omega
    rw [payload, hfirst, hlast, hcode, Char.ofNat_toNat]
    rfl
  by_cases hthree : c.toNat ≤ 65535
  · have hfirst := toNat_ofNat_of_lt (show c.toNat / 4096 + 224 < 256 by omega)
    refine ⟨_, _, encode_three (by omega) hthree, ?_⟩
    rw [List.cons_append, List.singleton_append,
      front_of_three ((startsThree_iff _ _).mpr (by omega))
        ((isContinuation_iff _).mpr (by omega))]
    have hcode :
        (c.toNat / 4096 + 224) % 16 * 4096 + (c.toNat / 64 % 64 + 128) % 64 * 64
          + (c.toNat % 64 + 128) % 64 = c.toNat := by omega
    rw [payload, payload, hfirst, hmiddle, hlast, hcode, Char.ofNat_toNat]
    rfl
  · have hfirst := toNat_ofNat_of_lt (show c.toNat / 262144 + 240 < 256 by omega)
    refine ⟨_, _, encode_four (by omega) (by omega), ?_⟩
    rw [List.cons_append, List.cons_append, List.singleton_append,
      front_of_four ((startsFour_iff _ _).mpr (by omega))
        ((isContinuation_iff _).mpr (by omega)) ((isContinuation_iff _).mpr (by omega))]
    have hcode :
        (c.toNat / 262144 + 240) % 8 * 262144 + (c.toNat / 4096 % 64 + 128) % 64 * 4096
          + (c.toNat / 64 % 64 + 128) % 64 * 64 + (c.toNat % 64 + 128) % 64 = c.toNat := by
      omega
    rw [payload, payload, payload, hfirst, hearly, hmiddle, hlast, hcode, Char.ofNat_toNat]
    rfl

theorem decodeLossyChars_encodeChars
    (chars : List Char) :
    decodeLossyChars (encodeChars chars) = chars := by
  induction chars with
  | nil => simp [encodeChars, decodeLossyChars]
  | cons c rest ih =>
      obtain ⟨first, others, hencode, hfront⟩ := front_utf8EncodeChar c (encodeChars rest)
      have hsplit : encodeChars (c :: rest) = first :: (others ++ encodeChars rest) := by
        rw [encodeChars, List.flatMap_cons, hencode]
        rfl
      rw [hsplit, decodeLossyChars, hfront]
      simp [ih]

theorem decodeLossy_encode
    (text : String) :
    decodeLossy (encode text) = text := by
  unfold decodeLossy encode
  rw [decodeLossyChars_encodeChars, String.ofList_toList]

/-! ## Writing what was read -/

theorem ofNat_eq_of_toNat
    (byte : UInt8) {number : Nat}
    (hsame : number = byte.toNat) :
    UInt8.ofNat number = byte := by
  rw [hsame, UInt8.ofNat_toNat]

/-- Only the four whole forms give anything but a replacement character. -/
theorem front_cases
    {first : UInt8} {rest : Bytes} {c : Char} {count : Nat}
    (hfront : front first rest = (c, count))
    (hwhole : c ≠ replacement) :
    (first.toNat < 128 ∧ c = Char.ofNat first.toNat ∧ count = 0) ∨
      (∃ second tail, rest = second :: tail ∧ 194 ≤ first.toNat ∧ first.toNat ≤ 223 ∧
        isContinuation second = true ∧
        c = Char.ofNat (first.toNat % 32 * 64 + payload second) ∧ count = 1) ∨
      (∃ second third tail, rest = second :: third :: tail ∧
        startsThree first second = true ∧ isContinuation third = true ∧
        c = Char.ofNat (first.toNat % 16 * 4096 + payload second * 64 + payload third) ∧
        count = 2) ∨
      ∃ second third fourth tail, rest = second :: third :: fourth :: tail ∧
        startsFour first second = true ∧ isContinuation third = true ∧
        isContinuation fourth = true ∧
        c = Char.ofNat (first.toNat % 8 * 262144 + payload second * 4096
          + payload third * 64 + payload fourth) ∧
        count = 3 := by
  have hdamaged : ∀ other, (replacement, other) ≠ (c, count) := by
    intro other hsame
    exact hwhole (congrArg Prod.fst hsame).symm
  unfold front at hfront
  split at hfront
  · rename_i hone
    have hpair := Prod.mk.inj hfront
    exact Or.inl ⟨UInt8.lt_iff_toNat_lt.mp hone, hpair.1.symm, hpair.2.symm⟩
  right
  split at hfront
  · rename_i htwo
    simp only [Bool.and_eq_true, decide_eq_true_eq, UInt8.le_iff_toNat_le,
      UInt8.reduceToNat] at htwo
    left
    split at hfront
    · split at hfront
      · rename_i second tail hsecond
        have hpair := Prod.mk.inj hfront
        exact ⟨second, tail, rfl, htwo.1, htwo.2, hsecond, hpair.1.symm, hpair.2.symm⟩
      · exact absurd hfront (hdamaged _)
    · exact absurd hfront (hdamaged _)
  right
  split at hfront
  · left
    split at hfront
    · split at hfront
      · split at hfront
        · rename_i second third tail hfirst hthird
          have hpair := Prod.mk.inj hfront
          exact ⟨second, third, tail, rfl, hfirst, hthird, hpair.1.symm, hpair.2.symm⟩
        · exact absurd hfront (hdamaged _)
      · exact absurd hfront (hdamaged _)
    · exact absurd hfront (hdamaged _)
    · exact absurd hfront (hdamaged _)
  right
  split at hfront
  · split at hfront
    · split at hfront
      · split at hfront
        · split at hfront
          · rename_i second third fourth tail hfirst hthird hfourth
            have hpair := Prod.mk.inj hfront
            exact ⟨second, third, fourth, tail, rfl, hfirst, hthird, hfourth, hpair.1.symm,
              hpair.2.symm⟩
          · exact absurd hfront (hdamaged _)
        · exact absurd hfront (hdamaged _)
      · exact absurd hfront (hdamaged _)
    · exact absurd hfront (hdamaged _)
    · exact absurd hfront (hdamaged _)
    · exact absurd hfront (hdamaged _)
  · exact absurd hfront (hdamaged _)

/-- A front that is no replacement character is written as the bytes it was read from. -/
theorem utf8EncodeChar_front
    {first : UInt8} {rest : Bytes} {c : Char} {count : Nat}
    (hfront : front first rest = (c, count))
    (hwhole : c ≠ replacement) :
    String.utf8EncodeChar c = first :: rest.take count := by
  have hlt := first.toNat_lt
  rcases front_cases hfront hwhole with hone | htwo | hthree | hfour
  · obtain ⟨hlow, rfl, rfl⟩ := hone
    have hcode := toNat_charOfNat (Or.inl (show first.toNat < 0xD800 by omega))
    rw [encode_one (by omega), hcode, UInt8.ofNat_toNat]
    rfl
  · obtain ⟨second, tail, rfl, hlow, hhigh, hsecond, rfl, rfl⟩ := htwo
    rw [isContinuation_iff] at hsecond
    unfold payload
    have hcode := toNat_charOfNat (Or.inl
      (show first.toNat % 32 * 64 + second.toNat % 64 < 0xD800 by omega))
    rw [encode_two (by omega) (by omega), hcode, ofNat_eq_of_toNat first (by omega),
      ofNat_eq_of_toNat second (by omega)]
    rfl
  · obtain ⟨second, third, tail, rfl, hfirst, hthird, rfl, rfl⟩ := hthree
    rw [startsThree_iff] at hfirst
    rw [isContinuation_iff] at hthird
    unfold payload
    have hcode := toNat_charOfNat
      (show first.toNat % 16 * 4096 + second.toNat % 64 * 64 + third.toNat % 64 < 0xD800 ∨
        0xDFFF < first.toNat % 16 * 4096 + second.toNat % 64 * 64 + third.toNat % 64 ∧
          first.toNat % 16 * 4096 + second.toNat % 64 * 64 + third.toNat % 64 < 0x110000 by
        omega)
    rw [encode_three (by omega) (by omega), hcode,
      ofNat_eq_of_toNat first (by omega),
      ofNat_eq_of_toNat second (by omega),
      ofNat_eq_of_toNat third (by omega)]
    rfl
  · obtain ⟨second, third, fourth, tail, rfl, hfirst, hthird, hfourth, rfl, rfl⟩ := hfour
    rw [startsFour_iff] at hfirst
    rw [isContinuation_iff] at hthird hfourth
    unfold payload
    have hcode := toNat_charOfNat (Or.inr
      (show 0xDFFF < first.toNat % 8 * 262144 + second.toNat % 64 * 4096
            + third.toNat % 64 * 64 + fourth.toNat % 64 ∧
          first.toNat % 8 * 262144 + second.toNat % 64 * 4096
            + third.toNat % 64 * 64 + fourth.toNat % 64 < 0x110000 by
        omega))
    rw [encode_four (by omega) (by omega), hcode,
      ofNat_eq_of_toNat first (by omega),
      ofNat_eq_of_toNat second (by omega),
      ofNat_eq_of_toNat third (by omega),
      ofNat_eq_of_toNat fourth (by omega)]
    rfl

theorem encodeChars_decodeLossyChars
    {bytes : Bytes}
    (hwhole : replacement ∉ decodeLossyChars bytes) :
    encodeChars (decodeLossyChars bytes) = bytes := by
  fun_induction decodeLossyChars bytes with
  | case1 => rfl
  | case2 first rest character ih =>
      rw [List.mem_cons, not_or] at hwhole
      have hchar :=
        @utf8EncodeChar_front first rest character.1 character.2 rfl (Ne.symm hwhole.1)
      unfold encodeChars at *
      rw [List.flatMap_cons, hchar, ih hwhole.2, List.cons_append, List.take_append_drop]

theorem encode_of_decodeLossy
    {bytes : Bytes} {text : String}
    (hread : decodeLossy bytes = text)
    (hwhole : replacement ∉ text.toList) :
    encode text = bytes := by
  unfold decodeLossy at hread
  rw [← hread, String.toList_ofList] at hwhole
  unfold encode
  rw [← hread, String.toList_ofList]
  exact encodeChars_decodeLossyChars hwhole

end Utf8
end MintWatch
