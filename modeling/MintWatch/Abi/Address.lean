import MintWatch.Bytes.Hex
import MintWatch.Hash.Keccak
/-!
# Addresses

An account address is written with forty digits.  Its checksummed form shows some
letters in upper case, chosen by the hash of the lower-case form, so that most
typing errors show.  Reading ignores the case of letters.
-/

namespace MintWatch

abbrev Address := Octets 20

abbrev Digest := Octets 32

/-- Reads exactly `n` bytes from a text with or without a mark. -/
def Octets.parse (n : Nat) (text : String) : Except Hex.Fault (Octets n) :=
  Hex.decodeExact n (Utf8.encodeChars (Hex.dropMark text.toList))

def Octets.hex {n : Nat} (octets : Octets n) : String :=
  Hex.encodeMarked octets.toList

namespace Address

def nibbles (bytes : Bytes) : List Nat :=
  bytes.flatMap fun byte => [byte.toNat / 16, byte.toNat % 16]

/-- Puts a letter in upper case if the digit of the hash at its place is at least eight. -/
def raise (c : Char) (digit : Nat) : Char :=
  if 8 ≤ digit then c.toUpper else c

def checksummed (address : Address) : String :=
  let lower := Hex.digits address.toList
  let hash := Keccak.hash (Utf8.encodeChars lower)
  "0x" ++ String.ofList (List.zipWith raise lower (nibbles hash.toList))

end Address
end MintWatch
