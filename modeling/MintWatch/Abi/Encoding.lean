import MintWatch.Abi.Value
/-!
# Encoding values

The standard encoding of an argument list.  Every value gives a part: a static
value stands in the head as it is, and a dynamic one stands behind the head, with
its offset from the start of the list in the head.
-/

namespace MintWatch
namespace Abi

/-- What a value contributes to the encoding of a list it stands in. -/
inductive Part where
  | inPlace (bytes : Bytes)
  | behind (bytes : Bytes)

namespace Part

def headSize : Part → Nat
  | .inPlace bytes => bytes.length
  | .behind _ => 32

def headSizes : List Part → Nat
  | [] => 0
  | part :: rest => part.headSize + headSizes rest

def word (number : Nat) : Bytes :=
  bigEndianBytes 32 number

/-- The heads of parts, if the contents of the first dynamic one start at `offset`. -/
def heads (offset : Nat) : List Part → Bytes
  | [] => []
  | .inPlace bytes :: rest => bytes ++ heads offset rest
  | .behind bytes :: rest => word offset ++ heads (offset + bytes.length) rest

/-- What stands behind the heads of parts. -/
def tails : List Part → Bytes
  | [] => []
  | .inPlace _ :: rest => tails rest
  | .behind bytes :: rest => bytes ++ tails rest

def join (parts : List Part) : Bytes :=
  heads (headSizes parts) parts ++ tails parts

end Part

def padToWords (bytes : Bytes) : Bytes :=
  bytes ++ List.replicate ((32 - bytes.length % 32) % 32) 0

/-- The number whose word is the two's complement of a number. -/
def twosComplement (value : Int) : Nat :=
  (value % (Word.range : Int)).toNat

namespace Value

mutual

def isDynamic : Value → Bool
  | .bytes _ => true
  | .string _ => true
  | .array _ => true
  | .fixedArray items => anyDynamic items
  | .tuple items => anyDynamic items
  | _ => false

def anyDynamic : List Value → Bool
  | [] => false
  | value :: rest => isDynamic value || anyDynamic rest

end

mutual

def encode : Value → Bytes
  | .bool value => Part.word (if value then 1 else 0)
  | .int value _ => Part.word (twosComplement value)
  | .uint value _ => Part.word value
  | .fixedBytes word _ => word.toList
  | .address value => List.replicate 12 0 ++ value.toList
  | .function value => value.toList ++ List.replicate 8 0
  | .bytes value => Part.word value.length ++ padToWords value
  | .string value =>
    let bytes := Utf8.encode value
    Part.word bytes.length ++ padToWords bytes
  | .array items => Part.word items.length ++ Part.join (parts items)
  | .fixedArray items => Part.join (parts items)
  | .tuple items => Part.join (parts items)

def parts : List Value → List Part
  | [] => []
  | value :: rest =>
    (if isDynamic value then Part.behind (encode value) else Part.inPlace (encode value))
      :: parts rest

end

def encodeParams (values : List Value) : Bytes :=
  Part.join (parts values)

end Value
end Abi
end MintWatch
