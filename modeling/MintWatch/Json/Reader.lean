import MintWatch.Bytes.Hex
import MintWatch.Json.Value
import MintWatch.Text.Characters
/-!
# Reading JSON

The strict grammar: no comments, no trailing commas, nothing after the value.  A
number that is too large for a double, and an escape for half of a surrogate
pair, are refused.  Arrays and objects may be nested up to a given depth.
-/

namespace MintWatch
namespace Json

def isSpace (c : Char) : Bool :=
  c = ' ' || c = '\t' || c = '\n' || c = '\r'

def skipSpace (chars : List Char) : List Char :=
  chars.dropWhile isSpace

def fourDigits? (a b c d : Char) : Option Nat := do
  let a ← Hex.digitValue? a.toNat
  let b ← Hex.digitValue? b.toNat
  let c ← Hex.digitValue? c.toNat
  let d ← Hex.digitValue? d.toNat
  return ((a * 16 + b) * 16 + c) * 16 + d

def escaped? : Char → Option Char
  | '"' => some '"'
  | '\\' => some '\\'
  | '/' => some '/'
  | 'b' => some '\x08'
  | 'f' => some '\x0c'
  | 'n' => some '\n'
  | 'r' => some '\r'
  | 't' => some '\t'
  | _ => none

def isHighSurrogate (code : Nat) : Bool :=
  0xD800 ≤ code && code ≤ 0xDBFF

def isLowSurrogate (code : Nat) : Bool :=
  0xDC00 ≤ code && code ≤ 0xDFFF

def readText : List Char → Option (List Char × List Char)
  | [] => none
  | '"' :: rest => some ([], rest)
  | '\\' :: 'u' :: a :: b :: c :: d :: rest =>
    match fourDigits? a b c d with
    | none => none
    | some code =>
      if isHighSurrogate code then
        match rest with
        | '\\' :: 'u' :: e :: f :: g :: h :: rest =>
          match fourDigits? e f g h with
          | none => none
          | some low =>
            if isLowSurrogate low then
              let scalar := 0x10000 + (code - 0xD800) * 0x400 + (low - 0xDC00)
              (readText rest).map fun read => (Char.ofNat scalar :: read.1, read.2)
            else none
        | _ => none
      else if isLowSurrogate code then none
      else (readText rest).map fun read => (Char.ofNat code :: read.1, read.2)
  | '\\' :: c :: rest =>
    match escaped? c with
    | none => none
    | some e => (readText rest).map fun read => (e :: read.1, read.2)
  | c :: rest =>
    if c.toNat < 0x20 || c = '\\' then none
    else (readText rest).map fun read => (c :: read.1, read.2)

/-- The smallest whole number that rounds to no finite double. -/
def doubleLimit : Nat :=
  Nat.pow 2 1024 - Nat.pow 2 970

/--
Whether a numeral is too large for a double.  The limit is idealised: it is that of exact
rounding, and a reader that rounds at each step of the conversion may differ from it at
numerals that are next to the limit.
-/
def exceedsDouble (mantissa : Nat) (exponent : Int) : Bool :=
  if mantissa = 0 then false
  else if 0 ≤ exponent then
    400 < exponent || doubleLimit ≤ mantissa * Nat.pow 10 exponent.toNat
  else
    let places := (-exponent).toNat
    places ≤ Nat.log2 mantissa && doubleLimit * Nat.pow 10 places ≤ mantissa

def readFraction : List Char → Option (List Char × List Char)
  | '.' :: rest =>
    let digits := rest.takeWhile Char.isDigit
    if digits.isEmpty then none else some (digits, rest.dropWhile Char.isDigit)
  | rest => some ([], rest)

def readExponentDigits (negative : Bool) (chars : List Char) : Option (Int × List Char) :=
  let digits := chars.takeWhile Char.isDigit
  if digits.isEmpty then none
  else
    let size : Int := Text.decimal digits
    some (if negative then -size else size, chars.dropWhile Char.isDigit)

def readExponent : List Char → Option (Int × List Char)
  | [] => some (0, [])
  | c :: rest =>
    if c = 'e' || c = 'E' then
      match rest with
      | '-' :: rest => readExponentDigits true rest
      | '+' :: rest => readExponentDigits false rest
      | rest => readExponentDigits false rest
    else some (0, c :: rest)

def readMagnitude (negative : Bool) (chars : List Char) : Option (Json × List Char) :=
  let whole := chars.takeWhile Char.isDigit
  if whole.isEmpty || (1 < whole.length && whole.head? = some '0') then none
  else do
    let (fraction, rest) ← readFraction (chars.dropWhile Char.isDigit)
    let (power, rest) ← readExponent rest
    let mantissa := Text.decimal (whole ++ fraction)
    let exponent := power - fraction.length
    if exceedsDouble mantissa exponent then none
    else
      let signed : Int := if negative then -(mantissa : Int) else mantissa
      some (.number signed exponent, rest)

def readScalar : List Char → Option (Json × List Char)
  | 'n' :: 'u' :: 'l' :: 'l' :: rest => some (.null, rest)
  | 't' :: 'r' :: 'u' :: 'e' :: rest => some (.bool true, rest)
  | 'f' :: 'a' :: 'l' :: 's' :: 'e' :: rest => some (.bool false, rest)
  | '"' :: rest => (readText rest).map fun read => (.string (String.ofList read.1), read.2)
  | '-' :: rest => readMagnitude true rest
  | chars => readMagnitude false chars

/--
Reads items with commas between them up to the closing character.  At most
`limit` items are read; every item has at least one character, so the length of
the text is limit enough.
-/
def readItems {α : Type} (item : List Char → Option (α × List Char)) (close : Char) :
    Nat → List Char → Option (List α × List Char)
  | 0, _ => none
  | limit + 1, chars =>
    match item (skipSpace chars) with
    | none => none
    | some (first, rest) =>
      match skipSpace rest with
      | [] => none
      | c :: rest =>
        if c = close then some ([first], rest)
        else if c = ',' then
          (readItems item close limit rest).map fun read => (first :: read.1, read.2)
        else none

def readSequence {α : Type} (item : List Char → Option (α × List Char)) (close : Char)
    (chars : List Char) : Option (List α × List Char) :=
  match skipSpace chars with
  | [] => none
  | c :: rest => if c = close then some ([], rest) else readItems item close chars.length (c :: rest)

def readMember (value : List Char → Option (Json × List Char)) :
    List Char → Option ((String × Json) × List Char)
  | '"' :: rest =>
    match readText rest with
    | none => none
    | some (key, rest) =>
      match skipSpace rest with
      | ':' :: rest => (value (skipSpace rest)).map fun read => ((String.ofList key, read.1), read.2)
      | _ => none
  | _ => none

/-- Reads a value with at most `depth` arrays and objects around any other. -/
def readValue : Nat → List Char → Option (Json × List Char)
  | 0, chars => readScalar chars
  | depth + 1, chars =>
    match chars with
    | '[' :: rest => (readSequence (readValue depth) ']' rest).map fun read => (.array read.1, read.2)
    | '{' :: rest =>
      (readSequence (readMember (readValue depth)) '}' rest).map fun read =>
        (.object (lastOfEach read.1), read.2)
    | chars => readScalar chars

def readWithin (depth : Nat) (text : String) : Option Json :=
  match readValue depth (skipSpace text.toList) with
  | some (value, rest) => if (skipSpace rest).isEmpty then some value else none
  | none => none

def depthLimit : Nat := 127

def read? (text : String) : Option Json :=
  readWithin depthLimit text

end Json
end MintWatch
