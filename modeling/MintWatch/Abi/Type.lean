/-!
# Parameter types

The types a contract's parameters can have, and the measures of their layout: a
parameter list is laid out as a head of 32-byte words, in which every dynamic
type takes one word that points to its contents.
-/

namespace MintWatch
namespace Abi

structure Width where
  bytes : Nat
  pos : 0 < bytes
  le : bytes ≤ 32
deriving DecidableEq

namespace Width

def bits (width : Width) : Nat :=
  8 * width.bytes

def ofBytes? (bytes : Nat) : Option Width :=
  if h : 0 < bytes ∧ bytes ≤ 32 then some ⟨bytes, h.1, h.2⟩ else none

def ofBits? (bits : Nat) : Option Width :=
  if bits % 8 = 0 then ofBytes? (bits / 8) else none

def full : Width :=
  ⟨32, by decide, by decide⟩

end Width

/-- The length of an array type: a positive number of 64 bits. -/
structure Count where
  val : Nat
  pos : 0 < val
  lt : val < UInt64.size
deriving DecidableEq

def Count.ofNat? (number : Nat) : Option Count :=
  if h : 0 < number ∧ number < UInt64.size then some ⟨number, h.1, h.2⟩ else none

inductive Ty where
  | bool
  | int (width : Width)
  | uint (width : Width)
  | fixedBytes (width : Width)
  | address
  | function
  | bytes
  | string
  | array (item : Ty)
  | fixedArray (item : Ty) (count : Count)
  | tuple (items : List Ty)
deriving Inhabited

namespace Ty

mutual

def isDynamic : Ty → Bool
  | .bytes => true
  | .string => true
  | .array _ => true
  | .fixedArray item _ => isDynamic item
  | .tuple items => anyDynamic items
  | _ => false

def anyDynamic : List Ty → Bool
  | [] => false
  | ty :: rest => isDynamic ty || anyDynamic rest

end

mutual

def words : Ty → Nat
  | .fixedArray item count => words item * count.val
  | .tuple items => wordsOf items
  | _ => 1

def wordsOf : List Ty → Nat
  | [] => 0
  | ty :: rest => words ty + wordsOf rest

end

def headSize (ty : Ty) : Nat :=
  if ty.isDynamic then 32 else 32 * ty.words

mutual

/-- The least number of words that the values of a type can be laid out in. -/
def leastWords : Ty → Nat
  | .fixedArray item count => leastWords item * count.val
  | .tuple items => leastWordsOf items
  | _ => 1

def leastWordsOf : List Ty → Nat
  | [] => 0
  | ty :: rest => leastWords ty + leastWordsOf rest

end

mutual

/-- Whether values carry no information: empty tuples, and what is made of them alone. -/
def isEmpty : Ty → Bool
  | .array item => isEmpty item
  | .fixedArray item _ => isEmpty item
  | .tuple items => allEmpty items
  | _ => false

def allEmpty : List Ty → Bool
  | [] => true
  | ty :: rest => isEmpty ty && allEmpty rest

end

mutual

/--
The name of a type.  The name of a tuple with one component has a comma after
the component.
-/
def name : Ty → String
  | .bool => "bool"
  | .int width => "int" ++ toString width.bits
  | .uint width => "uint" ++ toString width.bits
  | .fixedBytes width => "bytes" ++ toString width.bytes
  | .address => "address"
  | .function => "function"
  | .bytes => "bytes"
  | .string => "string"
  | .array item => name item ++ "[]"
  | .fixedArray item count => name item ++ "[" ++ toString count.val ++ "]"
  | .tuple [item] => "(" ++ name item ++ ",)"
  | .tuple items => "(" ++ String.intercalate "," (names items) ++ ")"

def names : List Ty → List String
  | [] => []
  | ty :: rest => name ty :: names rest

end

end Ty
end Abi
end MintWatch
