import MintWatch.Call.Decoded
import MintWatch.Call.Error
import MintWatch.Chain.RpcError
/-!
# Transactions

A transaction as a node returns it: an object whose members are texts.  A pending
transaction is in no block, and one that creates a contract has no recipient.
-/

namespace MintWatch

abbrev CallDecoder := Bytes → Except AbiError DecodedCall

structure Transaction where
  hash : Digest
  blockHash : Option Digest
  blockNumber : Option Nat
  sender : Address
  recipient : Option Address
  gas : Nat
  gasPrice : Option Nat
  nonce : Nat
  rawInput : Bytes
  /-- The call in the input data, once it has been decoded. -/
  input : Option DecodedCall

namespace Transaction

def optionalText (field : String) (json : Json) : Option String :=
  (json.member? field).bind Json.text?

def requiredText (field : String) (json : Json) : Except RpcError String :=
  match optionalText field json with
  | some text => .ok text
  | none => .error (.decode (.missingField field))

def readDigest (text : String) : Except RpcError Digest :=
  (Octets.parse 32 text).mapError fun fault => .decode (.badDigest text fault)

def readAddress (text : String) : Except RpcError Address :=
  (Octets.parse 20 text).mapError fun fault => .decode (.badAddress text fault)

def readQuantity (bits : Nat) (text : String) : Except RpcError Nat :=
  (Quantity.read bits text).mapError fun fault => .decode (.badQuantity text fault)

def readInput (text : String) : Except RpcError Bytes :=
  (Hex.decode (Utf8.encodeChars (Hex.dropMark text.toList))).mapError
    fun fault => .decode (.badInput fault)

def readOptional {α : Type} (read : String → Except RpcError α) :
    Option String → Except RpcError (Option α)
  | none => .ok none
  | some text => (read text).map some

/-- The transaction an object stands for; the first member that is wrong is reported. -/
def ofJson (json : Json) : Except RpcError Transaction := do
  let hash ← (requiredText "hash" json).bind readDigest
  let blockHash ← readOptional readDigest (optionalText "blockHash" json)
  let blockNumber ← readOptional (readQuantity 64) (optionalText "blockNumber" json)
  let sender ← (requiredText "from" json).bind readAddress
  let recipient ← readOptional readAddress (optionalText "to" json)
  let gas ← (requiredText "gas" json).bind (readQuantity 64)
  let gasPrice ← readOptional (readQuantity 128) (optionalText "gasPrice" json)
  let nonce ← (requiredText "nonce" json).bind (readQuantity 64)
  let rawInput ← (requiredText "input" json).bind readInput
  return { hash, blockHash, blockNumber, sender, recipient, gas, gasPrice, nonce, rawInput,
           input := none }

def withRawInput (transaction : Transaction) (rawInput : Bytes) : Transaction :=
  { transaction with rawInput }

/-- Decodes the input data: the call, and the transaction that remembers it. -/
def decodeInput (transaction : Transaction) (decode : CallDecoder) :
    Except AbiError (DecodedCall × Transaction) :=
  (decode transaction.rawInput).map fun call => (call, { transaction with input := some call })

def decodeInputIfPossible (transaction : Transaction) (decode : CallDecoder) : Transaction :=
  match transaction.decodeInput decode with
  | .ok decoded => decoded.2
  | .error _ => transaction

end Transaction
end MintWatch
