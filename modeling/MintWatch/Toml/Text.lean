import MintWatch.Bytes.Hex
/-!
# TOML texts

The four kinds of quoted text: basic texts have escapes and literal texts have none;
either can be written on one line or on several.
-/

namespace MintWatch
namespace Toml

def isPrintable (c : Char) : Bool :=
  c = '\t' || (0x20 ≤ c.toNat && c.toNat ≠ 0x7F)

def isGap (c : Char) : Bool :=
  c = ' ' || c = '\t'

def skipGap (chars : List Char) : List Char :=
  chars.dropWhile isGap

def escaped? : Char → Option Char
  | 'b' => some '\x08'
  | 't' => some '\t'
  | 'n' => some '\n'
  | 'f' => some '\x0c'
  | 'r' => some '\r'
  | '"' => some '"'
  | '\\' => some '\\'
  | _ => none

def codedChar? (digits : List Char) : Option Char :=
  let code := digits.foldl (fun total c =>
    match total, Hex.digitValue? c.toNat with
    | some total, some digit => some (total * 16 + digit)
    | _, _ => none) (some 0)
  match code with
  | none => none
  | some code =>
    if code < 0xD800 || (0xDFFF < code && code ≤ 0x10FFFF) then some (Char.ofNat code) else none

def consRead (c : Option Char) (read : Option (List Char × List Char)) :
    Option (List Char × List Char) :=
  match c, read with
  | some c, some (chars, rest) => some (c :: chars, rest)
  | _, _ => none

def readBasic : List Char → Option (List Char × List Char)
  | [] => none
  | '"' :: rest => some ([], rest)
  | '\\' :: 'u' :: a :: b :: c :: d :: rest => consRead (codedChar? [a, b, c, d]) (readBasic rest)
  | '\\' :: 'U' :: a :: b :: c :: d :: e :: f :: g :: h :: rest =>
    consRead (codedChar? [a, b, c, d, e, f, g, h]) (readBasic rest)
  | '\\' :: c :: rest => consRead (escaped? c) (readBasic rest)
  | c :: rest => if isPrintable c && c ≠ '\\' then consRead (some c) (readBasic rest) else none

def readLiteral : List Char → Option (List Char × List Char)
  | [] => none
  | c :: rest =>
    if c.toNat = 0x27 then some ([], rest)
    else if isPrintable c then consRead (some c) (readLiteral rest)
    else none

def endsLine (chars : List Char) : Bool :=
  match skipGap chars with
  | '\n' :: _ => true
  | '\r' :: '\n' :: _ => true
  | _ => false

/--
Reads the rest of a basic text on several lines.  Up to two quotation marks may stand
before the three that close the text.  A backslash at the end of a line drops the white
space and line ends after it; `trimming` says that these are being dropped.
-/
def readLongBasic (trimming : Bool) : List Char → Option (List Char × List Char)
  | [] => none
  | '"' :: '"' :: '"' :: '"' :: '"' :: rest => some (['"', '"'], rest)
  | '"' :: '"' :: '"' :: '"' :: rest => some (['"'], rest)
  | '"' :: '"' :: '"' :: rest => some ([], rest)
  | '\r' :: '\n' :: rest =>
    if trimming then readLongBasic true rest else consRead (some '\n') (readLongBasic false rest)
  | '\n' :: rest =>
    if trimming then readLongBasic true rest else consRead (some '\n') (readLongBasic false rest)
  | '\\' :: 'u' :: a :: b :: c :: d :: rest =>
    consRead (codedChar? [a, b, c, d]) (readLongBasic false rest)
  | '\\' :: 'U' :: a :: b :: c :: d :: e :: f :: g :: h :: rest =>
    consRead (codedChar? [a, b, c, d, e, f, g, h]) (readLongBasic false rest)
  | '\\' :: c :: rest =>
    if endsLine (c :: rest) then readLongBasic true rest
    else consRead (escaped? c) (readLongBasic false rest)
  | c :: rest =>
    if trimming && isGap c then readLongBasic true rest
    else if isPrintable c && c ≠ '\\' then consRead (some c) (readLongBasic false rest)
    else none

def readLongLiteral : List Char → Option (List Char × List Char)
  | [] => none
  | '\r' :: '\n' :: rest => consRead (some '\n') (readLongLiteral rest)
  | '\n' :: rest => consRead (some '\n') (readLongLiteral rest)
  | c :: rest =>
    if c.toNat = 0x27 then
      match (c :: rest).takeWhile fun other => other.toNat = 0x27 with
      | [_, _, _] => some ([], rest.drop 2)
      | [_, _, _, _] => some ([c], rest.drop 3)
      | _ :: _ :: _ :: _ :: _ :: _ => some ([c, c], rest.drop 4)
      | _ => consRead (some c) (readLongLiteral rest)
    else if isPrintable c then consRead (some c) (readLongLiteral rest)
    else none

/-- Drops a line end right after the opening marks of a text on several lines. -/
def dropFirstLineEnd : List Char → List Char
  | '\n' :: rest => rest
  | '\r' :: '\n' :: rest => rest
  | chars => chars

def readShortText : List Char → Option (List Char × List Char)
  | '"' :: rest => readBasic rest
  | c :: rest => if c.toNat = 0x27 then readLiteral rest else none
  | [] => none

def readText : List Char → Option (List Char × List Char)
  | '"' :: '"' :: '"' :: rest => readLongBasic false (dropFirstLineEnd rest)
  | a :: b :: c :: rest =>
    if a.toNat = 0x27 && b.toNat = 0x27 && c.toNat = 0x27 then
      readLongLiteral (dropFirstLineEnd rest)
    else readShortText (a :: b :: c :: rest)
  | chars => readShortText chars

end Toml
end MintWatch
