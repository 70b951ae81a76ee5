import MintWatch.Json.Reader
import MintWatch.Text.Characters
import MintWatch.Toml.Value
/-!
# TOML scalars without quotation marks

Numbers, truth values, dates and times are runs of a few characters; what such a run
denotes is decided by the run as a whole.
-/

namespace MintWatch
namespace Toml

def isScalarChar (c : Char) : Bool :=
  c.isAlphanum || c = '+' || c = '-' || c = '_' || c = '.' || c = ':'

def splitSign : List Char → Bool × List Char
  | '-' :: rest => (true, rest)
  | '+' :: rest => (false, rest)
  | chars => (false, chars)

/-- The digits in a run of digits in which underscores may stand between two of them. -/
def digitRun? (isDigit : Char → Bool) : List Char → Option (List Char)
  | [] => none
  | [c] => if isDigit c then some [c] else none
  | c :: '_' :: rest =>
    if isDigit c then (digitRun? isDigit rest).map (c :: ·) else none
  | c :: rest =>
    if isDigit c then (digitRun? isDigit rest).map (c :: ·) else none

/-! ## Integers -/

def fitsInteger (value : Int) : Bool :=
  -9223372036854775808 ≤ value && value ≤ 9223372036854775807

def integer? (value : Int) : Option Toml :=
  if fitsInteger value then some (.integer value) else none

def decimalInteger? (chars : List Char) : Option Toml := do
  let (negative, unsigned) := splitSign chars
  let digits ← digitRun? Char.isDigit unsigned
  if 1 < digits.length && digits.head? = some '0' then none
  else
    let size : Int := Text.decimal digits
    integer? (if negative then -size else size)

def isDigitOf (base : Nat) (c : Char) : Bool :=
  (Hex.digitValue? c.toNat).any fun value => value < base

def basedInteger? (base : Nat) (chars : List Char) : Option Toml := do
  let digits ← digitRun? (isDigitOf base) chars
  let add (total : Nat) (c : Char) : Nat := total * base + (Hex.digitValue? c.toNat).getD 0
  let size : Nat := digits.foldl add 0
  integer? size

def readInteger? : List Char → Option Toml
  | '0' :: 'x' :: rest => basedInteger? 16 rest
  | '0' :: 'o' :: rest => basedInteger? 8 rest
  | '0' :: 'b' :: rest => basedInteger? 2 rest
  | chars => decimalInteger? chars

/-! ## Floats -/

def isFloatDigit (c : Char) : Bool :=
  c.isDigit || c = '_'

def exponent? (chars : List Char) : Option Int := do
  let (negative, unsigned) := splitSign chars
  let digits ← digitRun? Char.isDigit unsigned
  let size : Int := Text.decimal digits
  return if negative then -size else size

def fractionAndExponent? : List Char → Option (List Char × Int)
  | [] => none
  | c :: rest =>
    if c = '.' then do
      let fraction ← digitRun? Char.isDigit (rest.takeWhile isFloatDigit)
      match rest.dropWhile isFloatDigit with
      | [] => return (fraction, 0)
      | e :: power => if e = 'e' || e = 'E' then return (fraction, ← exponent? power) else none
    else if c = 'e' || c = 'E' then (exponent? rest).map fun power => ([], power)
    else none

/-- Whether a run denotes a float; one that is too large for a double does not. -/
def isFloat (chars : List Char) : Bool :=
  let (negative, unsigned) := splitSign chars
  if unsigned = ['i', 'n', 'f'] || unsigned = ['n', 'a', 'n'] then true
  else
    match digitRun? Char.isDigit (unsigned.takeWhile isFloatDigit),
      fractionAndExponent? (unsigned.dropWhile isFloatDigit) with
    | some whole, some (fraction, power) =>
      let wellFormed := whole.length = 1 || whole.head? ≠ some '0'
      let mantissa := Text.decimal (whole ++ fraction)
      wellFormed && (negative || !Json.exceedsDouble mantissa (power - fraction.length))
    | _, _ => false

/-! ## Dates and times -/

def readFixed (count low high : Nat) (chars : List Char) : Option (Nat × List Char) :=
  let digits := chars.take count
  let value := Text.decimal digits
  if digits.length = count && digits.all Char.isDigit && low ≤ value && value ≤ high then
    some (value, chars.drop count)
  else none

def expect (c : Char) : List Char → Option (List Char)
  | [] => none
  | first :: rest => if first = c then some rest else none

def isLeapYear (year : Nat) : Bool :=
  year % 4 = 0 && (year % 100 ≠ 0 || year % 400 = 0)

def daysInMonth (year month : Nat) : Nat :=
  if month = 2 then if isLeapYear year then 29 else 28
  else if month = 4 || month = 6 || month = 9 || month = 11 then 30
  else 31

def dropDate (chars : List Char) : Option (List Char) := do
  let (year, chars) ← readFixed 4 0 9999 chars
  let (month, chars) ← readFixed 2 1 12 (← expect '-' chars)
  let (_, chars) ← readFixed 2 1 (daysInMonth year month) (← expect '-' chars)
  return chars

/-- Drops a time of day at the front; its seconds may have a fraction, and may be a leap second. -/
def dropTime (chars : List Char) : Option (List Char) := do
  let (_, chars) ← readFixed 2 0 23 chars
  let (_, chars) ← readFixed 2 0 59 (← expect ':' chars)
  let (_, chars) ← readFixed 2 0 60 (← expect ':' chars)
  match chars with
  | '.' :: rest =>
    if (rest.takeWhile Char.isDigit).isEmpty then none else some (rest.dropWhile Char.isDigit)
  | rest => some rest

def isOffset : List Char → Bool
  | [] => true
  | ['Z'] => true
  | ['z'] => true
  | c :: rest =>
    let distance := do
      let (_, rest) ← readFixed 2 0 23 rest
      let (_, rest) ← readFixed 2 0 59 (← expect ':' rest)
      return rest
    (c = '+' || c = '-') && distance = some []

def isTime (chars : List Char) : Bool :=
  dropTime chars = some []

def isZonedTime (chars : List Char) : Bool :=
  (dropTime chars).any isOffset

def isDate (chars : List Char) : Bool :=
  dropDate chars = some []

def isDateOrTime (chars : List Char) : Bool :=
  match dropDate chars with
  | some [] => true
  | some (c :: rest) => (c = 'T' || c = 't') && isZonedTime rest
  | none => isTime chars

/-! ## All scalars -/

def scalar? (chars : List Char) : Option Toml :=
  if chars = ['t', 'r', 'u', 'e'] then some (.boolean true)
  else if chars = ['f', 'a', 'l', 's', 'e'] then some (.boolean false)
  else if isDateOrTime chars then some .date
  else if isFloat chars then some .float
  else readInteger? chars

/--
Reads a scalar without quotation marks.  A date may be followed by a space and a time.
-/
def readScalar (chars : List Char) : Option (Toml × List Char) :=
  let run := chars.takeWhile isScalarChar
  let rest := chars.dropWhile isScalarChar
  match isDate run, rest with
  | true, ' ' :: later =>
    let time := later.takeWhile isScalarChar
    if time.isEmpty then some (.date, rest)
    else if isZonedTime time then some (.date, later.dropWhile isScalarChar)
    else none
  | _, _ => (scalar? run).map fun value => (value, rest)

end Toml
end MintWatch
