import Mathlib
import MintWatch.Proofs.Chain.TransactionMembers
import MintWatch.Proofs.Mint.PassEffect
/-!
# A confirmation rests on the input alone

What a node tells of a transaction besides its input has no part in a verification.  A
record that is confirmed by one transaction is confirmed by every other with the same
input, under whatever hash and in whatever block, or in none at all.
-/

namespace MintWatch

/-- Whether the transaction is what a node's reply for a record says. -/
def IsFoundFor (transaction : Transaction) (record : ContentRecord) (client : Client)
    (node : Node) : Prop :=
  ∃ wanted, record.txHash = some wanted ∧
    lookupOf wanted (node (client.transaction wanted none).2.envelope) = .ok transaction

/-! ## The same transaction elsewhere -/

def textOrNull : Option String → Json
  | none => .null
  | some text => .string text

theorem text?_textOrNull
    (text : Option String) :
    (textOrNull text).text? = text := by
  cases text <;> rfl

/-- A transaction's members with its hash and its block in the place of what they say of it. -/
def placedMembers (hash : Digest) (blockHash : Option Digest) (blockNumber : Option UInt64)
    (members : List (String × Json)) : List (String × Json) :=
  Json.put "hash" (.string hash.hex)
    (Json.put "blockHash" (textOrNull (blockHash.map Octets.hex))
      (Json.put "blockNumber"
        (textOrNull (blockNumber.map fun number => "0x" ++ Hex.ofNat number.toNat)) members))

namespace Transaction

variable {transaction : Transaction} {members : List (String × Json)}

theorem requiredText_congr
    {field : String} {first second : Json}
    (hsame : optionalText field first = optionalText field second) :
    requiredText field first = requiredText field second := by
  unfold requiredText
  rw [hsame]

theorem readDigest_hex
    (digest : Digest) :
    readDigest digest.hex = .ok digest := by
  rw [readDigest, Octets.parse_hex]
  rfl

theorem readOptional_map
    {α β : Type} {read : String → Except RpcError β} {shown : α → String} {value : α → β}
    (hread : ∀ item, read (shown item) = .ok (value item))
    (item : Option α) :
    readOptional read (item.map shown) = .ok (item.map value) := by
  cases item with
  | none => rfl
  | some item => exact congrArg (Except.map some) (hread item)

theorem IsReadFrom.placed
    (hread : transaction.IsReadFrom (.object members))
    (hash : Digest) (blockHash : Option Digest) (blockNumber : Option UInt64) :
    IsReadFrom { transaction with hash, blockHash, blockNumber := blockNumber.map UInt64.toNat }
      (.object (placedMembers hash blockHash blockNumber members)) := by
  -- All that is not said of the place is read as before.
  have hkept : ∀ field, "hash" ≠ field → "blockHash" ≠ field → "blockNumber" ≠ field →
      optionalText field (.object (placedMembers hash blockHash blockNumber members)) =
        optionalText field (.object members) := by
    intro field hhash hblockHash hblockNumber
    unfold placedMembers
    rw [optionalText_put, if_neg hhash, optionalText_put, if_neg hblockHash, optionalText_put,
      if_neg hblockNumber]
  have hkept' : ∀ field, "hash" ≠ field → "blockHash" ≠ field → "blockNumber" ≠ field →
      requiredText field (.object (placedMembers hash blockHash blockNumber members)) =
        requiredText field (.object members) :=
    fun field hhash hblockHash hblockNumber =>
      requiredText_congr (hkept field hhash hblockHash hblockNumber)
  constructor
  case hash =>
    have htext : requiredText "hash"
        (.object (placedMembers hash blockHash blockNumber members)) = .ok hash.hex := by
      unfold requiredText placedMembers
      rw [optionalText_put, if_pos rfl]
      rfl
    rw [htext]
    exact readDigest_hex hash
  case blockHash =>
    unfold placedMembers
    rw [optionalText_put, if_neg (by decide), optionalText_put, if_pos rfl, text?_textOrNull]
    exact (readOptional_map readDigest_hex blockHash).trans (by rw [Option.map_id'])
  case blockNumber =>
    unfold placedMembers
    rw [optionalText_put, if_neg (by decide), optionalText_put, if_neg (by decide),
      optionalText_put, if_pos rfl, text?_textOrNull]
    refine readOptional_map (fun number => ?_) blockNumber
    rw [readQuantity, Quantity.read_marked_ofNat number.toNat_lt]
    rfl
  case sender => exact hkept' "from" (by decide) (by decide) (by decide) ▸ hread.sender
  case recipient => exact hkept "to" (by decide) (by decide) (by decide) ▸ hread.recipient
  case gas => exact hkept' "gas" (by decide) (by decide) (by decide) ▸ hread.gas
  case gasPrice => exact hkept "gasPrice" (by decide) (by decide) (by decide) ▸ hread.gasPrice
  case nonce => exact hkept' "nonce" (by decide) (by decide) (by decide) ▸ hread.nonce
  case rawInput => exact hkept' "input" (by decide) (by decide) (by decide) ▸ hread.rawInput
  case input => exact hread.input

end Transaction

/-- The node that answers every request with this result. -/
def Node.always (result : Json) : Node :=
  fun _ => .ok (.object [("result", result)])

theorem lookupOf_of_result
    {wanted : String} {body result : Json} {transaction : Transaction}
    (hresult : body.member? "result" = some result)
    (hread : Transaction.ofJson result = .ok transaction) :
    lookupOf wanted (.ok body) = .ok transaction :=
  bind_eq_ok_iff.mpr
    ⟨result, resultOf_eq_ok_iff.mpr ⟨body, rfl, hresult⟩, transactionOf_eq_ok_iff.mpr hread⟩

theorem isFoundFor_always
    {transaction : Transaction} {record : ContentRecord} {wanted : String}
    {members : List (String × Json)}
    (client : Client)
    (hwanted : record.txHash = some wanted)
    (hread : transaction.IsReadFrom (.object members)) :
    IsFoundFor transaction record client (Node.always (.object members)) :=
  ⟨wanted, hwanted, lookupOf_of_result rfl (Transaction.ofJson_eq_ok_iff.mpr hread)⟩

namespace Verifier

variable {verifier : Verifier} {client : Client} {node : Node} {record : ContentRecord}
  {transaction : Transaction}

/-- The verdict on a record that has a transaction is the verdict on its input. -/
theorem verify_of_isFoundFor
    (hfound : IsFoundFor transaction record client node) :
    (verifier.verify client node record).2 = .ok .confirmed ↔
      ∃ call, verifier.decode transaction.rawInput = .ok call ∧
        checkMint call record verifier.mintFunction = .ok () := by
  obtain ⟨wanted, hwanted, hlookup⟩ := hfound
  rw [verify_of_txHash hwanted, hlookup, judge_eq_confirmed_iff]
  simp only [Except.ok.injEq, exists_and_left, exists_eq_left']

theorem exists_members_of_confirmed
    (hconfirmed : (verifier.verify client node record).2 = .ok .confirmed) :
    ∃ transaction members, IsFoundFor transaction record client node ∧
      transaction.IsReadFrom (.object members) := by
  obtain ⟨wanted, body, result, transaction, call, hwanted, hbody, hresult, hread, -, -⟩ :=
    verify_eq_confirmed_iff.mp hconfirmed
  obtain ⟨members, -, rfl, -, -⟩ := Transaction.input_of_ofJson hread
  refine ⟨transaction, members, ⟨wanted, hwanted, ?_⟩, Transaction.ofJson_eq_ok_iff.mp hread⟩
  rw [hbody]
  exact lookupOf_of_result hresult hread

theorem confirmed_whatever_hash_and_block
    (hconfirmed : (verifier.verify client node record).2 = .ok .confirmed) :
    ∃ transaction, IsFoundFor transaction record client node ∧
      (∀ (other : Node) (found : Transaction), IsFoundFor found record client other →
        found.rawInput = transaction.rawInput →
          (verifier.verify client other record).2 = .ok .confirmed) ∧
      ∀ (hash : Digest) (blockHash : Option Digest) (blockNumber : Option UInt64),
        ∃ other : Node,
          IsFoundFor
            { transaction with hash, blockHash, blockNumber := blockNumber.map UInt64.toNat }
            record client other ∧
          (verifier.verify client other record).2 = .ok .confirmed := by
  obtain ⟨transaction, members, hfound, hread⟩ := exists_members_of_confirmed hconfirmed
  have hproof := (verify_of_isFoundFor hfound).mp hconfirmed
  refine ⟨transaction, hfound, ?_, ?_⟩
  · intro other found hother hinput
    rw [verify_of_isFoundFor hother, hinput]
    exact hproof
  · intro hash blockHash blockNumber
    obtain ⟨wanted, hwanted, -⟩ := hfound
    have hplaced := isFoundFor_always client hwanted (hread.placed hash blockHash blockNumber)
    exact ⟨_, hplaced, (verify_of_isFoundFor hplaced).mpr hproof⟩

/-! A mint that the node gives as pending, and as mined under another hash than that which is
asked for. -/

section Elsewhere

def certifyVerifier : Verifier :=
  Verifier.ofIndex ⟨[certifyFunction], none⟩ "certify"

def pendingMint : Node :=
  Node.always (.object
    (placedMembers (Octets.ofNat 32 0x12) none none (bareMembers certifyOwner certifyInput)))

def otherMint : Node :=
  Node.always (.object
    (placedMembers (Octets.ofNat 32 0x99) (some (Octets.ofNat 32 0xB10C)) (some 16)
      (bareMembers certifyOwner certifyInput)))

theorem isFoundFor_placed_certify
    (hash : Digest) (blockHash : Option Digest) (blockNumber : Option UInt64) :
    IsFoundFor
      ⟨hash, blockHash, blockNumber.map UInt64.toNat, certifyOwner, none, 1, none, 0,
        certifyInput, none⟩
      certifyRecord .fresh
      (Node.always (.object (placedMembers hash blockHash blockNumber
        (bareMembers certifyOwner certifyInput)))) := by
  have hread := Transaction.ofJson_eq_ok_iff.mp (ofJson_bareMembers certifyOwner certifyInput)
  exact isFoundFor_always .fresh rfl (hread.placed hash blockHash blockNumber)

theorem decodeFunction_certify :
    (⟨[certifyFunction], none⟩ : InterfaceIndex).decodeFunction certifyInput =
      .ok ⟨"certify", certifyFunction.signature,
        argumentsFrom 0 certifyInputs certifyValues⟩ :=
  InterfaceIndex.decodeFunction_eq_ok_iff.mpr
    ⟨certifyFunction.selector, certifyFunction, _, (List.take_left' rfl).symm, rfl,
      decodeArguments_certify, rfl⟩

theorem verify_placed_certify
    (hash : Digest) (blockHash : Option Digest) (blockNumber : Option UInt64) :
    (certifyVerifier.verify .fresh
      (Node.always (.object (placedMembers hash blockHash blockNumber
        (bareMembers certifyOwner certifyInput)))) certifyRecord).2 = .ok .confirmed := by
  have howner : certifyRecord.owner? = some certifyOwner := by
    cbv
  have hmint :
      checkMint ⟨"certify", certifyFunction.signature, argumentsFrom 0 certifyInputs certifyValues⟩
        certifyRecord "certify" = .ok () :=
    checkMint_eq_ok_iff.mpr ⟨rfl, certifyOwner, "ipfs://meta", rfl, howner, rfl⟩
  rw [verify_of_isFoundFor (isFoundFor_placed_certify hash blockHash blockNumber)]
  refine ⟨_, ?_, hmint⟩
  simp only [certifyVerifier, Verifier.ofIndex, decodeFunction_certify]

theorem confirmed_whatever_hash_and_block_certify :
    (certifyVerifier.verify .fresh pendingMint certifyRecord).2 = .ok .confirmed ∧
      ∃ (found : Transaction) (other : Node),
        found.hash = Octets.ofNat 32 0x99 ∧ found.blockNumber = none ∧
        IsFoundFor found certifyRecord .fresh other ∧
        (certifyVerifier.verify .fresh other certifyRecord).2 = .ok .confirmed := by
  have hpending := verify_placed_certify (Octets.ofNat 32 0x12) none none
  obtain ⟨transaction, -, -, hplaced⟩ := confirmed_whatever_hash_and_block hpending
  obtain ⟨other, hfound, hconfirmed⟩ := hplaced (Octets.ofNat 32 0x99) none none
  exact ⟨hpending, _, other, rfl, rfl, hfound, hconfirmed⟩

theorem confirmed_without_block_or_by_other_hash :
    (¬ ∀ (verifier : Verifier) (client : Client) (node : Node) (record : ContentRecord)
        (transaction : Transaction),
      (verifier.verify client node record).2 = .ok .confirmed →
      IsFoundFor transaction record client node →
        transaction.blockHash.isSome = true ∧ transaction.blockNumber.isSome = true) ∧
    ¬ ∀ (verifier : Verifier) (client : Client) (node : Node) (record : ContentRecord)
        (wanted : String) (transaction : Transaction),
      (verifier.verify client node record).2 = .ok .confirmed →
      record.txHash = some wanted →
      IsFoundFor transaction record client node →
        Transaction.readQuantity 256 wanted = .ok transaction.hash.toNat := by
  constructor
  · intro hmined
    have hpending := hmined certifyVerifier .fresh pendingMint certifyRecord _
      (verify_placed_certify _ _ _) (isFoundFor_placed_certify _ _ _)
    cases hpending.1
  · intro hsame
    have hother := hsame certifyVerifier .fresh otherMint certifyRecord "0x12" _
      (verify_placed_certify _ _ _) rfl (isFoundFor_placed_certify _ _ _)
    have hwanted : Transaction.readQuantity 256 "0x12" = .ok 0x12 := by
      rfl
    have hnumbers : 0x12 = (Octets.ofNat 32 0x99).toNat := Except.ok.inj (hwanted.symm.trans hother)
    revert hnumbers
    decide +kernel

end Elsewhere

end Verifier
end MintWatch
