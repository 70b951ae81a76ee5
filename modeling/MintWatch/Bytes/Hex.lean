import MintWatch.Bytes.Octets
/-!
# Hexadecimal text

Bytes are written with two lower-case digits each.  Reading takes digits of
either case and reports the first byte of the text that is not a digit together
with its position; positions count the bytes of the text.
-/

namespace MintWatch
namespace Hex

def digit (value : Nat) : Char :=
  if value < 10 then Char.ofNat (48 + value) else Char.ofNat (87 + value)

def digitValue? (code : Nat) : Option Nat :=
  if 48 ≤ code ∧ code ≤ 57 then some (code - 48)
  else if 97 ≤ code ∧ code ≤ 102 then some (code - 87)
  else if 65 ≤ code ∧ code ≤ 70 then some (code - 55)
  else none

def digits : Bytes → List Char
  | [] => []
  | byte :: rest => digit (byte.toNat / 16) :: digit (byte.toNat % 16) :: digits rest

def encode (bytes : Bytes) : String :=
  String.ofList (digits bytes)

def encodeMarked (bytes : Bytes) : String :=
  "0x" ++ encode bytes

def ofNat (number : Nat) : String :=
  String.ofList (Nat.toDigits 16 number)

/-- Drops one mark `0x` or `0X` at the front of a text. -/
def dropMark : List Char → List Char
  | '0' :: 'x' :: rest => rest
  | '0' :: 'X' :: rest => rest
  | chars => chars

/-- A text byte that is no hexadecimal digit, and where it stands. -/
structure BadDigit where
  byte : UInt8
  position : Nat
deriving DecidableEq

/--
Reads the bytes of a hexadecimal text from `position` on.  Callers have checked
that the text has an even number of bytes; a lone digit at the end is dropped.
-/
def decodeFrom (position : Nat) : Bytes → Except BadDigit Bytes
  | high :: low :: rest =>
    match digitValue? high.toNat with
    | none => .error ⟨high, position⟩
    | some h =>
      match digitValue? low.toNat with
      | none => .error ⟨low, position + 1⟩
      | some l => (decodeFrom (position + 2) rest).map (UInt8.ofNat (16 * h + l) :: ·)
  | _ => .ok []

inductive Fault where
  | oddLength
  | wrongLength
  | badDigit (fault : BadDigit)
deriving DecidableEq

def decode (text : Bytes) : Except Fault Bytes :=
  if text.length % 2 = 1 then .error .oddLength
  else (decodeFrom 0 text).mapError .badDigit

def decodeExact (n : Nat) (text : Bytes) : Except Fault (Octets n) :=
  if text.length % 2 = 1 then .error .oddLength
  else if text.length ≠ 2 * n then .error .wrongLength
  else
    match decodeFrom 0 text with
    | .error fault => .error (.badDigit fault)
    | .ok bytes =>
      match Octets.ofList? n bytes with
      | some octets => .ok octets
      | none => .error .wrongLength

end Hex
end MintWatch
