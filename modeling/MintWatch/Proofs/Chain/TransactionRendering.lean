import Mathlib
import MintWatch.Proofs.Chain.TransactionMembers
import MintWatch.Proofs.Json.Members
/-!
# Objects that show a transaction

A transaction is shown by an object with one member for each of its parts: bytes are shown
by their digits behind a mark, and numbers by digits behind a mark with zeros in front.
Letters are of either case, what the transaction does not have is left out or null, and
other members may stand anywhere.  Reading such an object gives the transaction that it
shows, with no call decoded.
-/

namespace MintWatch

/-! ## Digits behind a mark -/

namespace Hex

/-- Whether a text is a mark and these digits behind it, letters being of either case. -/
def IsMarked (text : String) (digits : List Char) : Prop :=
  ∃ mark written, mark ∈ ['x', 'X'] ∧ text.toList = '0' :: mark :: written ∧
    written.map Char.toLower = digits

theorem IsMarked.dropMark
    {text : String} {digits : List Char}
    (hmarked : IsMarked text digits) :
    (dropMark text.toList).map Char.toLower = digits := by
  obtain ⟨mark, written, hmark, htext, hdigits⟩ := hmarked
  simp only [List.mem_cons, List.not_mem_nil, or_false] at hmark
  rw [htext]
  rcases hmark with rfl | rfl
  · exact hdigits
  · exact hdigits

theorem isMarked_of_take_drop
    {text : String} {digits : List Char} {mark : Char}
    (hmark : mark ∈ ['x', 'X'])
    (hfront : text.toList.take 2 = ['0', mark])
    (hdigits : (text.toList.drop 2).map Char.toLower = digits) :
    IsMarked text digits := by
  refine ⟨mark, text.toList.drop 2, hmark, ?_, hdigits⟩
  calc
    text.toList = text.toList.take 2 ++ text.toList.drop 2 := (List.take_append_drop 2 _).symm
    _ = '0' :: mark :: text.toList.drop 2 := by rw [hfront]; rfl

end Hex

/-- Whether a text shows bytes. -/
def Octets.IsShownBy {n : Nat} (octets : Octets n) (text : String) : Prop :=
  Hex.IsMarked text (Hex.digits octets.toList)

namespace Quantity

/-- Whether a text shows a number, with any number of zeros in front. -/
def IsShownBy (number : Nat) (text : String) : Prop :=
  ∃ zeros, Hex.IsMarked text (List.replicate zeros '0' ++ Nat.toDigits 16 number)

theorem read_of_isShownBy
    {bits number : Nat} {text : String}
    (hshown : IsShownBy number text)
    (hfits : number < 2 ^ bits) :
    read bits text = .ok number := by
  obtain ⟨zeros, hmarked⟩ := hshown
  have hdigits := hmarked.dropMark
  have hread : readDigits bits 0 (Hex.dropMark text.toList) = .ok number := by
    rw [← readDigits_map_toLower, hdigits, readDigits_zeros, readDigits_toDigits hfits]
  refine readUnmarked_of_readDigits ?_ hread
  intro hnone
  rw [hnone, List.map_nil] at hdigits
  exact Nat.toDigits_ne_nil (List.append_eq_nil_iff.mp hdigits.symm).2

end Quantity

namespace Transaction

section Members

variable {α : Type} {members : List (String × Json)} {key : String}

/-- Whether a member is a text that shows something. -/
def Shows (members : List (String × Json)) (key : String) (isShownBy : String → Prop) : Prop :=
  ∃ text, (key, .string text) ∈ members ∧ isShownBy text

/-- Whether a member shows what there is, and is left out or null where there is nothing. -/
def ShowsOptional (members : List (String × Json)) (key : String)
    (isShownBy : α → String → Prop) : Option α → Prop
  | some value => Shows members key (isShownBy value)
  | none => ∀ json, (key, json) ∈ members → json = .null

theorem optionalText_of_shows
    {isShownBy : String → Prop}
    (hdistinct : Json.HaveDistinctKeys members)
    (hshows : Shows members key isShownBy) :
    ∃ text, optionalText key (.object members) = some text ∧ isShownBy text := by
  obtain ⟨text, hmember, hshown⟩ := hshows
  refine ⟨text, ?_, hshown⟩
  unfold optionalText
  rw [Json.member?, (Json.find?_eq_some_iff_mem hdistinct).mpr hmember]
  rfl

theorem optionalText_of_null
    (hdistinct : Json.HaveDistinctKeys members)
    (hnull : ∀ json, (key, json) ∈ members → json = .null) :
    optionalText key (.object members) = none := by
  unfold optionalText
  rw [Json.member?]
  cases hfind : Json.find? key members with
  | none => rfl
  | some json =>
      rw [hnull json ((Json.find?_eq_some_iff_mem hdistinct).mp hfind)]
      rfl

theorem requiredText_bind_of_shows
    {isShownBy : String → Prop} {read : String → Except RpcError α} {value : α}
    (hdistinct : Json.HaveDistinctKeys members)
    (hshows : Shows members key isShownBy)
    (hread : ∀ text, isShownBy text → read text = .ok value) :
    (requiredText key (.object members)).bind read = .ok value := by
  obtain ⟨text, htext, hshown⟩ := optionalText_of_shows hdistinct hshows
  unfold requiredText
  rw [htext]
  exact hread text hshown

theorem readOptional_of_showsOptional
    {isShownBy : α → String → Prop} {read : String → Except RpcError α} {item : Option α}
    (hdistinct : Json.HaveDistinctKeys members)
    (hshows : ShowsOptional members key isShownBy item)
    (hread : ∀ value ∈ item, ∀ text, isShownBy value text → read text = .ok value) :
    readOptional read (optionalText key (.object members)) = .ok item := by
  cases item with
  | none =>
      rw [optionalText_of_null hdistinct hshows]
      rfl
  | some value =>
      obtain ⟨text, htext, hshown⟩ := optionalText_of_shows hdistinct hshows
      rw [htext]
      exact congrArg (Except.map some) (hread value rfl text hshown)

end Members

theorem readDigest_of_isShownBy
    {digest : Digest} {text : String}
    (hshown : digest.IsShownBy text) :
    readDigest text = .ok digest := by
  rw [readDigest, mapError_eq_ok_iff, Octets.parse_eq_ok_iff]
  exact hshown.dropMark

theorem readAddress_of_isShownBy
    {address : Address} {text : String}
    (hshown : address.IsShownBy text) :
    readAddress text = .ok address := by
  rw [readAddress, mapError_eq_ok_iff, Octets.parse_eq_ok_iff]
  exact hshown.dropMark

theorem readQuantity_of_isShownBy
    {bits number : Nat} {text : String}
    (hshown : Quantity.IsShownBy number text)
    (hfits : number < 2 ^ bits) :
    readQuantity bits text = .ok number := by
  rw [readQuantity, mapError_eq_ok_iff]
  exact Quantity.read_of_isShownBy hshown hfits

/-- Whether the numbers of a transaction are no wider than they are in chain data. -/
structure HasNarrowNumbers (transaction : Transaction) : Prop where
  blockNumber : ∀ number ∈ transaction.blockNumber, number < 2 ^ 64
  gas : transaction.gas < 2 ^ 64
  gasPrice : ∀ price ∈ transaction.gasPrice, price < 2 ^ 128
  nonce : transaction.nonce < 2 ^ 64

/-- Whether the members of an object show a transaction. -/
structure IsShownBy (transaction : Transaction) (members : List (String × Json)) : Prop where
  distinct : Json.HaveDistinctKeys members
  hash : Shows members "hash" transaction.hash.IsShownBy
  blockHash : ShowsOptional members "blockHash" Octets.IsShownBy transaction.blockHash
  blockNumber : ShowsOptional members "blockNumber" Quantity.IsShownBy transaction.blockNumber
  sender : Shows members "from" transaction.sender.IsShownBy
  recipient : ShowsOptional members "to" Octets.IsShownBy transaction.recipient
  gas : Shows members "gas" (Quantity.IsShownBy transaction.gas)
  gasPrice : ShowsOptional members "gasPrice" Quantity.IsShownBy transaction.gasPrice
  nonce : Shows members "nonce" (Quantity.IsShownBy transaction.nonce)
  rawInput :
    Shows members "input" fun text => Hex.IsMarked text (Hex.digits transaction.rawInput)

/-- Reading an object that shows a transaction gives the transaction, with no call decoded. -/
theorem ofJson_of_isShownBy
    {transaction : Transaction} {members : List (String × Json)}
    (hnarrow : transaction.HasNarrowNumbers)
    (hshown : transaction.IsShownBy members) :
    ofJson (.object members) = .ok { transaction with input := none } := by
  have hdistinct := hshown.distinct
  rw [ofJson_eq_ok_iff]
  constructor
  case hash =>
    exact requiredText_bind_of_shows hdistinct hshown.hash fun _ => readDigest_of_isShownBy
  case blockHash =>
    exact readOptional_of_showsOptional hdistinct hshown.blockHash
      fun _ _ _ => readDigest_of_isShownBy
  case blockNumber =>
    exact readOptional_of_showsOptional hdistinct hshown.blockNumber
      fun number hnumber _ hnumberShown =>
        readQuantity_of_isShownBy hnumberShown (hnarrow.blockNumber number hnumber)
  case sender =>
    exact requiredText_bind_of_shows hdistinct hshown.sender fun _ => readAddress_of_isShownBy
  case recipient =>
    exact readOptional_of_showsOptional hdistinct hshown.recipient
      fun _ _ _ => readAddress_of_isShownBy
  case gas =>
    exact requiredText_bind_of_shows hdistinct hshown.gas
      fun _ hgasShown => readQuantity_of_isShownBy hgasShown hnarrow.gas
  case gasPrice =>
    exact readOptional_of_showsOptional hdistinct hshown.gasPrice
      fun price hprice _ hpriceShown =>
        readQuantity_of_isShownBy hpriceShown (hnarrow.gasPrice price hprice)
  case nonce =>
    exact requiredText_bind_of_shows hdistinct hshown.nonce
      fun _ hnonceShown => readQuantity_of_isShownBy hnonceShown hnarrow.nonce
  case rawInput =>
    exact requiredText_bind_of_shows hdistinct hshown.rawInput
      fun _ hinputShown => readInput_eq_ok_iff.mpr hinputShown.dropMark
  case input => rfl

/-! A pending creation of a contract with the highest price that there is, shown with letters
of both cases, zeros in front, a member that is null, one that is left out and others that
are not read. -/

def pendingCreation : Transaction where
  hash := Octets.ofNat 32 0xAB
  blockHash := none
  blockNumber := none
  sender := Octets.ofNat 20 0xC0FFEE
  recipient := none
  gas := 50000
  gasPrice := some (2 ^ 128 - 1)
  nonce := 0
  rawInput := [0xCA, 0xFE, 0x01]
  input := none

def pendingCreationMembers : List (String × Json) :=
  [("type", .string "0x0"),
    ("nonce", .string "0x0000"),
    ("input", .string "0xcAFe01"),
    ("blockHash", .null),
    ("from", .string "0x0000000000000000000000000000000000C0ffEE"),
    ("gasPrice", .string "0x00FFFFffffFFFFffffFFFFffffFFFFffff"),
    ("accessList", .array []),
    ("hash", .string "0X00000000000000000000000000000000000000000000000000000000000000aB"),
    ("gas", .string "0xC350"),
    ("to", .null)]

theorem ofJson_of_isShownBy_pendingCreation :
    pendingCreation.HasNarrowNumbers ∧ pendingCreation.IsShownBy pendingCreationMembers ∧
      ofJson (.object pendingCreationMembers) = .ok pendingCreation := by
  have hnarrow : pendingCreation.HasNarrowNumbers := by
    constructor <;> simp [pendingCreation]
  have hdistinct : Json.HaveDistinctKeys pendingCreationMembers := by
    unfold Json.HaveDistinctKeys
    decide
  have hshows : ∀ {key text : String} {isShownBy : String → Prop},
      Json.find? key pendingCreationMembers = some (.string text) → isShownBy text →
        Shows pendingCreationMembers key isShownBy :=
    fun hfind hshown => ⟨_, (Json.find?_eq_some_iff_mem hdistinct).mp hfind, hshown⟩
  have hlower : 'x' ∈ ['x', 'X'] := by
    decide
  have hupper : 'X' ∈ ['x', 'X'] := by
    decide
  have hshown : pendingCreation.IsShownBy pendingCreationMembers := by
    constructor
    case distinct => exact hdistinct
    case hash =>
      exact hshows rfl (Hex.isMarked_of_take_drop hupper (by decide) (by decide +kernel))
    case sender =>
      exact hshows rfl (Hex.isMarked_of_take_drop hlower (by decide) (by decide +kernel))
    case gas =>
      exact hshows rfl ⟨0, Hex.isMarked_of_take_drop hlower (by decide) (by decide +kernel)⟩
    case gasPrice =>
      exact hshows rfl ⟨2, Hex.isMarked_of_take_drop hlower (by decide) (by decide +kernel)⟩
    case nonce =>
      exact hshows rfl ⟨3, Hex.isMarked_of_take_drop hlower (by decide) (by decide +kernel)⟩
    case rawInput =>
      exact hshows rfl (Hex.isMarked_of_take_drop hlower (by decide) (by decide +kernel))
    all_goals simp [ShowsOptional, pendingCreation, pendingCreationMembers]
  exact ⟨hnarrow, hshown, ofJson_of_isShownBy hnarrow hshown⟩

end Transaction
end MintWatch
