import MintWatch.Abi.Address
/-!
# Argument values

The values that arguments can have.  A number carries the number of bits of its
type; a byte string of fixed size is kept as the word that holds it, with its size.
-/

namespace MintWatch
namespace Abi

inductive Value where
  | bool (value : Bool)
  | int (value : Int) (bits : Nat)
  | uint (value : Nat) (bits : Nat)
  | fixedBytes (word : Word) (size : Nat)
  | address (value : Address)
  | function (value : Octets 24)
  | bytes (value : Bytes)
  | string (value : String)
  | array (items : List Value)
  | fixedArray (items : List Value)
  | tuple (items : List Value)
deriving Inhabited

/--
The most values that a list can hold: a list takes fewer than 2^63 bytes, and each of its
values 48 of them.  That memory may run out earlier is left aside.
-/
def Value.listLimit : Nat :=
  (UInt64.size / 2 - 1) / 48

/-- The bytes of a value of fixed size: the front of its word. -/
def shownBytes (word : Word) (size : Nat) : Bytes :=
  word.toList.take size

end Abi
end MintWatch
