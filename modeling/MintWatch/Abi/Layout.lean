import MintWatch.Abi.Type
import MintWatch.Abi.Value
/-!
# Reading a layout

Reads the values of a parameter list from its encoding.  Words are taken as they
are: whether a word is the proper encoding of a value of its type is a question of
its own.  Offsets may point anywhere inside the bytes they count from, so values
may overlap; at most sixteen lists are open inside each other.
-/

namespace MintWatch
namespace Abi

inductive LayoutFault where
  | overrun
  | tooDeep
  | wideNumber (word : Word)
deriving DecidableEq

def LayoutFault.message : LayoutFault → String
  | .overrun => "ABI decoding failed: buffer overrun while deserializing"
  | .tooDeep => "ABI decoding failed: recursion limit of 16 exceeded during decoding"
  | .wideNumber word =>
    "type check failed for \"offset (usize)\" with data: " ++ Hex.encode word.toList

/-- A byte string that offsets count in, and how many others it lies in. -/
structure Frame where
  data : Bytes
  depth : Nat

namespace Frame

/-- How many frames may lie inside each other. -/
def depthLimit : Nat := 16

def word (frame : Frame) (position : Nat) : Except LayoutFault Word :=
  match Octets.ofList? 32 ((frame.data.drop position).take 32) with
  | some word => .ok word
  | none => .error .overrun

/-- The offset or length at a position, which has to fit 64 bits. -/
def number (frame : Frame) (position : Nat) : Except LayoutFault Nat :=
  match frame.word position with
  | .error fault => .error fault
  | .ok word => if word.toNat < UInt64.size then .ok word.toNat else .error (.wideNumber word)

def openAt (frame : Frame) (offset : Nat) : Except LayoutFault Frame :=
  if depthLimit ≤ frame.depth then .error .tooDeep
  else if frame.data.length < offset then .error .overrun
  else .ok ⟨frame.data.drop offset, frame.depth + 1⟩

def follow (frame : Frame) (position : Nat) : Except LayoutFault Frame :=
  match frame.number position with
  | .error fault => .error fault
  | .ok offset => frame.openAt offset

def contents (frame : Frame) : Except LayoutFault Bytes :=
  match frame.number 0 with
  | .error fault => .error fault
  | .ok length =>
    let bytes := frame.data.drop 32
    if bytes.length < length then .error .overrun else .ok (bytes.take length)

def wordCount (frame : Frame) : Nat :=
  frame.data.length / 32

end Frame

def readEach {α ε : Type} (read : Nat → Except ε α) (stride : Nat) :
    Nat → Nat → Except ε (List α)
  | 0, _ => .ok []
  | count + 1, position =>
    match read position with
    | .error fault => .error fault
    | .ok value =>
      match readEach read stride count (position + stride) with
      | .error fault => .error fault
      | .ok values => .ok (value :: values)

def Word.toInt (word : Word) : Int :=
  if 2 * word.toNat < Word.range then word.toNat else (word.toNat : Int) - Word.range

namespace Ty

mutual

def read : Ty → Frame → Nat → Except LayoutFault Value
  | .bool, frame, position =>
    (frame.word position).map fun word => .bool (word.toNat != 0)
  | .int width, frame, position =>
    (frame.word position).map fun word => .int (Word.toInt word) width.bits
  | .uint width, frame, position =>
    (frame.word position).map fun word => .uint word.toNat width.bits
  | .fixedBytes width, frame, position =>
    (frame.word position).map fun word => .fixedBytes word width.bytes
  | .address, frame, position =>
    (frame.word position).map fun word => .address (word.drop 12)
  | .function, frame, position =>
    (frame.word position).map fun word => .function (word.take 24 (by decide))
  | .bytes, frame, position =>
    (frame.follow position).bind fun inner => inner.contents.map .bytes
  | .string, frame, position =>
    (frame.follow position).bind fun inner =>
      inner.contents.map fun bytes => .string (Utf8.decodeLossy bytes)
  | .array item, frame, position =>
    (frame.follow position).bind fun inner =>
      (inner.number 0).bind fun length =>
        if length = 0 then .ok (.array [])
        else if leastWords item = 0 then .ok (.array [])
        else
          (inner.openAt 32).bind fun items =>
            if items.wordCount < length * leastWords item then .error .overrun
            else (readEach (read item items) (headSize item) length 0).map .array
  | .fixedArray item count, frame, position =>
    (if isDynamic item then frame.follow position else frame.openAt position).bind fun inner =>
      (readEach (read item inner) (headSize item) count.val 0).map .fixedArray
  | .tuple items, frame, position =>
    (if anyDynamic items then frame.follow position else frame.openAt position).bind fun inner =>
      (readItems items inner 0).map .tuple

def readItems : List Ty → Frame → Nat → Except LayoutFault (List Value)
  | [], _, _ => .ok []
  | ty :: rest, frame, position =>
    match read ty frame position with
    | .error fault => .error fault
    | .ok value =>
      match readItems rest frame (position + headSize ty) with
      | .error fault => .error fault
      | .ok values => .ok (value :: values)

end

/--
Reads the values of a parameter list.  A list of empty types alone gives no values
and reads nothing; any other has to have enough words before anything is read.
-/
def readParams (types : List Ty) (data : Bytes) : Except LayoutFault (List Value) :=
  if allEmpty types then .ok []
  else if data.length / 32 < leastWordsOf types then .error .overrun
  else readItems types ⟨data, 0⟩ 0

end Ty
end Abi
end MintWatch
