import MintWatch.Abi.Type
import MintWatch.Bytes.Octets
/-!
# Canonical words

A word is canonical for a type if it is the encoding of a value of the type: a
number is not wider than its type, the bytes that fill up an address or a byte
string are zero.  The walk below visits the words of a parameter list on its own
and refuses the first that is not canonical, so that no two encodings of one value
are accepted.
-/

namespace MintWatch
namespace Abi

inductive WordFault where
  | wideOffset (position : Nat)
  | missing (position : Nat)
  | invalid (position : Nat) (type : String)
deriving DecidableEq

def WordFault.message : WordFault → String
  | .wideOffset position => "offset at byte " ++ toString position ++ " out of range"
  | .missing position => "calldata ends before byte " ++ toString position
  | .invalid position type => "word at byte " ++ toString position ++ " is not a valid " ++ type

def wordAt (data : Bytes) (position : Nat) : Except WordFault Word :=
  match Octets.ofList? 32 ((data.drop position).take 32) with
  | some word => .ok word
  | none => .error (.missing position)

/-- The offset or length at a position: a word whose first 24 bytes are zero. -/
def offsetAt (data : Bytes) (position : Nat) : Except WordFault Nat :=
  match wordAt data position with
  | .error fault => .error fault
  | .ok word =>
    if (word.toList.take 24).all (· == 0) then .ok (bigEndian (word.toList.drop 24))
    else .error (.wideOffset position)

def tailAt (data : Bytes) (position : Nat) : Except WordFault Bytes :=
  match offsetAt data position with
  | .error fault => .error fault
  | .ok offset =>
    if data.length < offset then .error (.missing offset) else .ok (data.drop offset)

/-- The byte that fills up a signed number whose first byte is given. -/
def signFill (first : UInt8) : UInt8 :=
  if first &&& 0x80 == 0 then 0x00 else 0xFF

def isCanonical (ty : Ty) (word : Word) : Bool :=
  match ty with
  | .bool => (word.toList.take 31).all (· == 0) && (word.toList.drop 31).all (· ≤ 1)
  | .address => (word.toList.take 12).all (· == 0)
  | .uint width => (word.toList.take (32 - width.bytes)).all (· == 0)
  | .int width =>
    let fill := signFill ((word.toList.drop (32 - width.bytes)).headD 0)
    (word.toList.take (32 - width.bytes)).all (· == fill)
  | .fixedBytes width => (word.toList.drop width.bytes).all (· == 0)
  | _ => true

def checkEach {ε : Type} (check : Nat → Except ε Unit) (stride : Nat) :
    Nat → Nat → Except ε Unit
  | 0, _ => .ok ()
  | count + 1, position =>
    match check position with
    | .error fault => .error fault
    | .ok () => checkEach check stride count (position + stride)

namespace Ty

def checkWord (ty : Ty) (data : Bytes) (position : Nat) : Except WordFault Unit :=
  match wordAt data position with
  | .error fault => .error fault
  | .ok word => if isCanonical ty word then .ok () else .error (.invalid position ty.name)

mutual

/--
Checks all words of a value whose head stands at a position.  Function values fill
their word from the left and are free in every byte that is looked at.
-/
def check : Ty → Bytes → Nat → Except WordFault Unit
  | .function, _, _ => .ok ()
  | .bytes, data, position => (tailAt data position).map fun _ => ()
  | .string, data, position => (tailAt data position).map fun _ => ()
  | .array item, data, position =>
    (tailAt data position).bind fun tail =>
      (offsetAt tail 0).bind fun length =>
        checkEach (check item (tail.drop 32)) (headSize item) length 0
  | .fixedArray item count, data, position =>
    if isDynamic item then
      (tailAt data position).bind fun tail =>
        checkEach (check item tail) (headSize item) count.val 0
    else checkEach (check item data) (headSize item) count.val position
  | .tuple items, data, position =>
    if anyDynamic items then
      (tailAt data position).bind fun tail => checkItems items tail 0
    else checkItems items (data.drop position) 0
  | .bool, data, position => checkWord .bool data position
  | .int width, data, position => checkWord (.int width) data position
  | .uint width, data, position => checkWord (.uint width) data position
  | .fixedBytes width, data, position => checkWord (.fixedBytes width) data position
  | .address, data, position => checkWord .address data position

def checkItems : List Ty → Bytes → Nat → Except WordFault Unit
  | [], _, _ => .ok ()
  | ty :: rest, data, position =>
    match check ty data position with
    | .error fault => .error fault
    | .ok () => checkItems rest data (position + headSize ty)

end

def checkParams (types : List Ty) (data : Bytes) : Except WordFault Unit :=
  checkItems types data 0

end Ty
end Abi
end MintWatch
