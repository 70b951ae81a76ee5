import MintWatch.Abi.Type
import MintWatch.Text.Characters
/-!
# Type texts

A type text is a stem followed by array suffixes.  The stem is a tuple if the text
starts with `(` or with `tuple(`, and a name otherwise.  A text is read in two
steps: first its form, as a `TypeForm`, and then, from left to right, the names in
it.  So a text with a malformed part reports that, whatever names it has.
-/

namespace MintWatch
namespace Abi

/-- A type text taken apart. -/
inductive TypeForm where
  | named (name : String)
  | tuple (items : List TypeForm)
  | array (item : TypeForm)
  | fixedArray (item : TypeForm) (count : Count)
deriving Inhabited

inductive TypeFault where
  | malformed
  | badSize (name : String)
  | unknownName (name : String)
deriving DecidableEq

def TypeFault.message : TypeFault → String
  | .malformed => "parser error"
  | .badSize name => "invalid size for type: " ++ name
  | .unknownName name => "invalid type string: " ++ name

namespace TypeForm

def startsName (c : Char) : Bool :=
  c.isAlpha || c = '_' || c = '$'

def continuesName (c : Char) : Bool :=
  c.isAlphanum || c = '_' || c = '$'

def readName : List Char → Option (List Char × List Char)
  | [] => none
  | c :: rest =>
    if startsName c then some (c :: rest.takeWhile continuesName, rest.dropWhile continuesName)
    else none

/--
Reads a name as a stem.  A name followed by a dot is one that is qualified by
another, and such names stand for enumerations, which are laid out as `uint8`.
-/
def readStem (chars : List Char) : Option (TypeForm × List Char) :=
  match readName chars with
  | none => none
  | some (_, '.' :: rest) =>
    match readName rest with
    | some (_, rest) => some (.named "uint8", rest)
    | none => some (.named "uint8", rest)
  | some (name, rest) => some (.named (String.ofList name), rest)

def readSuffixes : Nat → TypeForm → List Char → Option (TypeForm × List Char)
  | limit + 1, form, '[' :: rest =>
    match rest.takeWhile Char.isDigit, rest.dropWhile Char.isDigit with
    | [], ']' :: rest => readSuffixes limit (.array form) rest
    | digits, ']' :: rest =>
      match Count.ofNat? (Text.decimal digits) with
      | some count => readSuffixes limit (.fixedArray form count) rest
      | none => none
    | _, _ => none
  | _, form, rest => some (form, rest)

def isGap (c : Char) : Bool :=
  c = ' ' || c = '\t'

def skipGap (chars : List Char) : List Char :=
  chars.dropWhile isGap

/--
Reads the components of a tuple up to its closing parenthesis, at most `limit` of
them.  A comma may stand after the last component, and white space after a comma
and before the parenthesis that follows it.
-/
def readItems (item : List Char → Option (TypeForm × List Char)) :
    Nat → List Char → Option (List TypeForm × List Char)
  | 0, _ => none
  | limit + 1, chars =>
    match item chars with
    | none => none
    | some (first, ',' :: rest) =>
      match skipGap rest with
      | ')' :: rest => some ([first], rest)
      | rest => (readItems item limit rest).map fun read => (first :: read.1, read.2)
    | some (first, rest) =>
      match skipGap rest with
      | ')' :: rest => some ([first], rest)
      | _ => none

def readTuple (item : List Char → Option (TypeForm × List Char)) (chars : List Char) :
    Option (TypeForm × List Char) :=
  match skipGap chars with
  | ')' :: rest => some (.tuple [], rest)
  | rest => (readItems item rest.length rest).map fun read => (.tuple read.1, read.2)

/-- Reads the array suffixes behind a stem that was read. -/
def readArrays : Option (TypeForm × List Char) → Option (TypeForm × List Char)
  | none => none
  | some (stem, rest) => readSuffixes rest.length stem rest

/-- Reads a form with at most `depth` tuples around any of its parts. -/
def readWithin : Nat → List Char → Option (TypeForm × List Char)
  | depth + 1, '(' :: rest => readArrays (readTuple (readWithin depth) rest)
  | depth + 1, 't' :: 'u' :: 'p' :: 'l' :: 'e' :: '(' :: rest =>
    readArrays (readTuple (readWithin depth) rest)
  | _, chars => readArrays (readStem chars)

def depthLimit : Nat := 79

def ofText? (text : String) : Option TypeForm :=
  match readWithin depthLimit text.toList with
  | some (form, []) => some form
  | _ => none

end TypeForm

def sizeOf? (digits : List Char) : Option Nat :=
  if !digits.isEmpty && digits.all Char.isDigit then some (Text.decimal digits) else none

def dropFront? (front chars : List Char) : Option (List Char) :=
  if front.isPrefixOf chars then some (chars.drop front.length) else none

def Ty.ofName? (name : String) : Except TypeFault Ty :=
  let sized (size : List Char) (make : Nat → Option Ty) : Except TypeFault Ty :=
    match (sizeOf? size).bind make with
    | some ty => .ok ty
    | none => .error (.badSize name)
  if name = "address" then .ok .address
  else if name = "bool" then .ok .bool
  else if name = "string" then .ok .string
  else if name = "bytes" then .ok .bytes
  else if name = "function" then .ok .function
  else if name = "uint" then .ok (.uint Width.full)
  else if name = "int" then .ok (.int Width.full)
  else
    match dropFront? "bytes".toList name.toList with
    | some size => sized size fun n => (Width.ofBytes? n).map .fixedBytes
    | none =>
      match dropFront? "int".toList name.toList with
      | some size => sized size fun n => (Width.ofBits? n).map .int
      | none =>
        match dropFront? "uint".toList name.toList with
        | some size => sized size fun n => (Width.ofBits? n).map .uint
        | none => .error (.unknownName name)

mutual

/-- The type of a form, with its names resolved from left to right. -/
def Ty.ofForm : TypeForm → Except TypeFault Ty
  | .named name => Ty.ofName? name
  | .tuple items => (Ty.ofForms items).map .tuple
  | .array item => (Ty.ofForm item).map .array
  | .fixedArray item count => (Ty.ofForm item).map fun ty => .fixedArray ty count

def Ty.ofForms : List TypeForm → Except TypeFault (List Ty)
  | [] => .ok []
  | form :: rest =>
    match Ty.ofForm form with
    | .error fault => .error fault
    | .ok ty => (Ty.ofForms rest).map (ty :: ·)

end

def Ty.ofText (text : String) : Except TypeFault Ty :=
  match TypeForm.ofText? text with
  | some form => Ty.ofForm form
  | none => .error .malformed

end Abi
end MintWatch
