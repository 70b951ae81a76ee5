import Mathlib
import MintWatch.Chain.Transaction
import MintWatch.Proofs.Bytes.HexText
import MintWatch.Proofs.Fallible
/-!
# The members of a transaction

A transaction is read from an object member by member, each on its own.  A member that
is put into the object is read back, and all the others are read as before.  A number is
read back from its hexadecimal digits if it fits the bits that are asked for.
-/

namespace MintWatch

/-! ## Numbers in hexadecimal digits -/

namespace Quantity

theorem digitValue?_digitChar :
    ∀ value < 16, Hex.digitValue? (Nat.digitChar value).toNat = some value := by
  decide

theorem readDigits_append
    (bits total : Nat)
    (first second : List Char) :
    readDigits bits total (first ++ second) =
      (readDigits bits total first).bind fun read => readDigits bits read second := by
  induction first generalizing total with
  | nil => rfl
  | cons c rest ih =>
      rw [List.cons_append, readDigits, readDigits]
      cases Hex.digitValue? c.toNat with
      | none => rfl
      | some digit =>
          simp only
          split
          · exact ih _
          · rfl

theorem readDigits_digitChar
    (bits total : Nat)
    {value : Nat}
    (hvalue : value < 16)
    (hfits : total * 16 + value < 2 ^ bits) :
    readDigits bits total [Nat.digitChar value] = .ok (total * 16 + value) := by
  rw [readDigits, digitValue?_digitChar value hvalue]
  exact if_pos hfits

theorem readDigits_toDigits
    {bits number : Nat}
    (hfits : number < 2 ^ bits) :
    readDigits bits 0 (Nat.toDigits 16 number) = .ok number := by
  induction number using Nat.strongRecOn with
  | ind number ih =>
      rcases Nat.lt_or_ge number 16 with hsmall | hlarge
      · have hread := readDigits_digitChar bits 0 hsmall (by omega)
        rw [Nat.toDigits_of_lt_base hsmall, hread, Nat.zero_mul, Nat.zero_add]
      · have hfront := ih (number / 16) (by omega) (by omega)
        have hwhole : number / 16 * 16 + number % 16 = number := Nat.div_add_mod' number 16
        have hlast := readDigits_digitChar bits (number / 16)
          (Nat.mod_lt number (by decide)) (by omega)
        rw [Nat.toDigits_of_base_le (by decide) hlarge, readDigits_append, hfront]
        exact hlast.trans (congrArg _ hwhole)

/-- A sign is no digit, so digits that can be read are read without one. -/
theorem readUnmarked_of_readDigits
    {bits number : Nat}
    {digits : List Char}
    (hsome : digits ≠ [])
    (hread : readDigits bits 0 digits = .ok number) :
    readUnmarked bits digits = .ok number := by
  unfold readUnmarked
  split
  · exact absurd rfl hsome
  · cases hread
  · cases hread
  · exact hread

theorem readDigits_map_toLower
    (bits total : Nat)
    (chars : List Char) :
    readDigits bits total (chars.map Char.toLower) = readDigits bits total chars := by
  induction chars generalizing total with
  | nil => rfl
  | cons c rest ih =>
      rw [List.map_cons, readDigits, readDigits, Hex.digitValue?_toLower]
      simp only [ih]

theorem readDigits_zeros
    (bits zeros : Nat)
    (chars : List Char) :
    readDigits bits 0 (List.replicate zeros '0' ++ chars) = readDigits bits 0 chars := by
  induction zeros with
  | zero => rfl
  | succ zeros ih =>
      have hzero : Hex.digitValue? '0'.toNat = some 0 := by
        decide
      rw [List.replicate_succ, List.cons_append, readDigits, hzero]
      simp only [Nat.zero_mul, Nat.add_zero, ih]
      exact if_pos (Nat.two_pow_pos bits)

theorem read_marked_ofNat
    {bits number : Nat}
    (hfits : number < 2 ^ bits) :
    read bits ("0x" ++ Hex.ofNat number) = .ok number := by
  have htext : ("0x" ++ Hex.ofNat number).toList = '0' :: 'x' :: Nat.toDigits 16 number := by
    simp [Hex.ofNat, String.toList_append]
  rw [read, htext, Hex.dropMark]
  exact readUnmarked_of_readDigits Nat.toDigits_ne_nil (readDigits_toDigits hfits)

end Quantity

/-! ## Members that are put into an object -/

namespace Json

theorem find?_put
    (key wanted : String)
    (value : Json)
    (members : List (String × Json)) :
    find? wanted (put key value members) =
      if key = wanted then some value else find? wanted members := by
  induction members with
  | nil =>
      unfold find? put
      by_cases hkey : key = wanted <;> simp [hkey]
  | cons member rest ih =>
      unfold find? at ih ⊢
      unfold put
      by_cases hmember : member.1 = key
      · rw [if_pos hmember]
        by_cases hkey : key = wanted
        · simp [hkey]
        · have hother : ¬member.1 = wanted := fun hsame => hkey (hmember.symm.trans hsame)
          simp [hkey, hother]
      · rw [if_neg hmember]
        by_cases hwanted : member.1 = wanted
        · have hkey : ¬key = wanted := fun hsame => hmember (hwanted.trans hsame.symm)
          simp [hwanted, hkey]
        · simpa [hwanted] using ih

end Json

namespace Transaction

theorem optionalText_put
    (field key : String)
    (value : Json)
    (members : List (String × Json)) :
    optionalText field (.object (Json.put key value members)) =
      if key = field then value.text? else optionalText field (.object members) := by
  unfold optionalText
  rw [Json.member?, Json.find?_put, Json.member?]
  split <;> rfl

/-! ## Reading member by member -/

theorem readInput_eq_ok_iff
    {text : String} {bytes : Bytes} :
    readInput text = .ok bytes ↔ Hex.Denotes text bytes := by
  unfold readInput
  rw [mapError_eq_ok_iff, Hex.decode_eq_ok_iff]
  rfl

/-- Whether the transaction is what an object's members say, each read on its own. -/
structure IsReadFrom (transaction : Transaction) (json : Json) : Prop where
  hash : (requiredText "hash" json).bind readDigest = .ok transaction.hash
  blockHash : readOptional readDigest (optionalText "blockHash" json) = .ok transaction.blockHash
  blockNumber :
    readOptional (readQuantity 64) (optionalText "blockNumber" json) =
      .ok transaction.blockNumber
  sender : (requiredText "from" json).bind readAddress = .ok transaction.sender
  recipient : readOptional readAddress (optionalText "to" json) = .ok transaction.recipient
  gas : (requiredText "gas" json).bind (readQuantity 64) = .ok transaction.gas
  gasPrice :
    readOptional (readQuantity 128) (optionalText "gasPrice" json) = .ok transaction.gasPrice
  nonce : (requiredText "nonce" json).bind (readQuantity 64) = .ok transaction.nonce
  rawInput : (requiredText "input" json).bind readInput = .ok transaction.rawInput
  input : transaction.input = none

theorem ofJson_eq_ok_iff
    {json : Json}
    {transaction : Transaction} :
    ofJson json = .ok transaction ↔ transaction.IsReadFrom json := by
  constructor
  · intro hread
    obtain ⟨hash, hhash, hread⟩ := bind_eq_ok_iff.mp hread
    obtain ⟨blockHash, hblockHash, hread⟩ := bind_eq_ok_iff.mp hread
    obtain ⟨blockNumber, hblockNumber, hread⟩ := bind_eq_ok_iff.mp hread
    obtain ⟨sender, hsender, hread⟩ := bind_eq_ok_iff.mp hread
    obtain ⟨recipient, hrecipient, hread⟩ := bind_eq_ok_iff.mp hread
    obtain ⟨gas, hgas, hread⟩ := bind_eq_ok_iff.mp hread
    obtain ⟨gasPrice, hgasPrice, hread⟩ := bind_eq_ok_iff.mp hread
    obtain ⟨nonce, hnonce, hread⟩ := bind_eq_ok_iff.mp hread
    obtain ⟨rawInput, hrawInput, hread⟩ := bind_eq_ok_iff.mp hread
    cases hread
    exact ⟨hhash, hblockHash, hblockNumber, hsender, hrecipient, hgas, hgasPrice, hnonce,
      hrawInput, rfl⟩
  · intro hread
    obtain ⟨hash, blockHash, blockNumber, sender, recipient, gas, gasPrice, nonce, rawInput,
      input⟩ := transaction
    obtain ⟨hhash, hblockHash, hblockNumber, hsender, hrecipient, hgas, hgasPrice, hnonce,
      hrawInput, rfl⟩ := hread
    refine bind_eq_ok_iff.mpr ⟨hash, hhash, ?_⟩
    refine bind_eq_ok_iff.mpr ⟨blockHash, hblockHash, ?_⟩
    refine bind_eq_ok_iff.mpr ⟨blockNumber, hblockNumber, ?_⟩
    refine bind_eq_ok_iff.mpr ⟨sender, hsender, ?_⟩
    refine bind_eq_ok_iff.mpr ⟨recipient, hrecipient, ?_⟩
    refine bind_eq_ok_iff.mpr ⟨gas, hgas, ?_⟩
    refine bind_eq_ok_iff.mpr ⟨gasPrice, hgasPrice, ?_⟩
    refine bind_eq_ok_iff.mpr ⟨nonce, hnonce, ?_⟩
    exact bind_eq_ok_iff.mpr ⟨rawInput, hrawInput, rfl⟩

end Transaction
end MintWatch
