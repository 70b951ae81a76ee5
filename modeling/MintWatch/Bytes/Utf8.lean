import MintWatch.Bytes.Octets
/-!
# UTF-8

Writing text as bytes, and reading bytes as text when they may be damaged: every
maximal run of bytes that begins a character and cannot be completed is replaced
by one replacement character, as the Unicode standard recommends.
-/

namespace MintWatch
namespace Utf8

def encodeChars (chars : List Char) : Bytes :=
  chars.flatMap String.utf8EncodeChar

def encode (text : String) : Bytes :=
  encodeChars text.toList

/-- Stands for bytes that are no character. -/
def replacement : Char := Char.ofNat 0xFFFD

def isContinuation (byte : UInt8) : Bool :=
  0x80 ≤ byte && byte ≤ 0xBF

def startsThree (first second : UInt8) : Bool :=
  (first == 0xE0 && 0xA0 ≤ second && second ≤ 0xBF) ||
  (0xE1 ≤ first && first ≤ 0xEC && isContinuation second) ||
  (first == 0xED && 0x80 ≤ second && second ≤ 0x9F) ||
  (0xEE ≤ first && first ≤ 0xEF && isContinuation second)

def startsFour (first second : UInt8) : Bool :=
  (first == 0xF0 && 0x90 ≤ second && second ≤ 0xBF) ||
  (0xF1 ≤ first && first ≤ 0xF3 && isContinuation second) ||
  (first == 0xF4 && 0x80 ≤ second && second ≤ 0x8F)

def payload (byte : UInt8) : Nat :=
  byte.toNat % 64

/--
The character at the front of a byte string that starts with `first`, and how
many of the bytes after `first` belong to it.
-/
def front (first : UInt8) (rest : Bytes) : Char × Nat :=
  if first < 0x80 then (Char.ofNat first.toNat, 0)
  else if 0xC2 ≤ first && first ≤ 0xDF then
    match rest with
    | second :: _ =>
      if isContinuation second then
        (Char.ofNat (first.toNat % 32 * 64 + payload second), 1)
      else (replacement, 0)
    | [] => (replacement, 0)
  else if 0xE0 ≤ first && first ≤ 0xEF then
    match rest with
    | second :: third :: _ =>
      if startsThree first second then
        if isContinuation third then
          (Char.ofNat (first.toNat % 16 * 4096 + payload second * 64 + payload third), 2)
        else (replacement, 1)
      else (replacement, 0)
    | [second] => (replacement, if startsThree first second then 1 else 0)
    | [] => (replacement, 0)
  else if 0xF0 ≤ first && first ≤ 0xF4 then
    match rest with
    | second :: third :: fourth :: _ =>
      if startsFour first second then
        if isContinuation third then
          if isContinuation fourth then
            (Char.ofNat (first.toNat % 8 * 262144 + payload second * 4096
              + payload third * 64 + payload fourth), 3)
          else (replacement, 2)
        else (replacement, 1)
      else (replacement, 0)
    | [second, third] =>
      (replacement,
        if startsFour first second then if isContinuation third then 2 else 1 else 0)
    | [second] => (replacement, if startsFour first second then 1 else 0)
    | [] => (replacement, 0)
  else (replacement, 0)

/-- Reads bytes as text, with a replacement character for each damaged part. -/
def decodeLossyChars : Bytes → List Char
  | [] => []
  | first :: rest =>
    let character := front first rest
    character.1 :: decodeLossyChars (rest.drop character.2)
termination_by bytes => bytes.length

def decodeLossy (bytes : Bytes) : String :=
  String.ofList (decodeLossyChars bytes)

end Utf8
end MintWatch
