/-!
# Byte strings

Byte strings are lists of bytes, read as numbers with the most significant byte
first.  `Octets n` is a byte string of exactly `n` bytes; hashes, addresses,
selectors and the 32-byte words of calldata are all of this form.
-/

namespace MintWatch

abbrev Bytes := List UInt8

/-- The number a byte string denotes, most significant byte first. -/
def bigEndian (bytes : Bytes) : Nat :=
  bytes.foldl (fun total byte => total * 256 + byte.toNat) 0

/-- The lowest `count` bytes of a number, most significant byte first. -/
def bigEndianBytes : Nat → Nat → Bytes
  | 0, _ => []
  | count + 1, number => bigEndianBytes count (number / 256) ++ [UInt8.ofNat number]

@[simp] theorem length_bigEndianBytes (count number : Nat) :
    (bigEndianBytes count number).length = count := by
  induction count generalizing number with
  | zero => rfl
  | succ count ih => simp [bigEndianBytes, ih]

structure Octets (n : Nat) where
  toList : Bytes
  length_toList : toList.length = n
deriving DecidableEq

abbrev Word := Octets 32

def Word.range : Nat := Nat.pow 2 256

namespace Octets

variable {n : Nat}

theorem eq_of_toList_eq {a b : Octets n} (h : a.toList = b.toList) : a = b := by
  cases a
  cases b
  simp_all

def ofList? (n : Nat) (bytes : Bytes) : Option (Octets n) :=
  if h : bytes.length = n then some ⟨bytes, h⟩ else none

theorem ofList?_eq_some {bytes : Bytes} {octets : Octets n} :
    ofList? n bytes = some octets ↔ octets.toList = bytes := by
  unfold ofList?
  split
  · rename_i h
    constructor
    · intro same
      cases same
      rfl
    · intro same
      subst same
      rfl
  · rename_i h
    constructor
    · intro same
      cases same
    · intro same
      exact absurd (same ▸ octets.length_toList) h

def padRight (n : Nat) (bytes : Bytes) : Octets n :=
  ⟨(bytes ++ List.replicate n 0).take n, by simp⟩

def ofNat (n : Nat) (number : Nat) : Octets n :=
  ⟨bigEndianBytes n number, length_bigEndianBytes n number⟩

def toNat (octets : Octets n) : Nat :=
  bigEndian octets.toList

def take (octets : Octets n) (count : Nat) (h : count ≤ n) : Octets count :=
  ⟨octets.toList.take count, by simp [octets.length_toList, h]⟩

def drop (octets : Octets n) (count : Nat) : Octets (n - count) :=
  ⟨octets.toList.drop count, by simp [octets.length_toList]⟩

def zero (n : Nat) : Octets n :=
  ⟨List.replicate n 0, by simp⟩

end Octets

end MintWatch
