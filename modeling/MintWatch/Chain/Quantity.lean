import MintWatch.Bytes.Hex
/-!
# Hexadecimal quantities

Numbers in chain data are texts of hexadecimal digits of either case, with an
optional mark `0x` or `0X` and then an optional plus sign in front.  A number has to
fit a given number of bits; leading zeros do not count.
-/

namespace MintWatch

inductive QuantityFault where
  | empty
  | badDigit
  | tooLarge
deriving DecidableEq

def QuantityFault.message : QuantityFault → String
  | .empty => "cannot parse integer from empty string"
  | .badDigit => "invalid digit found in string"
  | .tooLarge => "number too large to fit in target type"

namespace Quantity

/--
Reads digits after those that gave `total`.  The first character that is no digit, or
that makes the number too large, decides the fault.
-/
def readDigits (bits : Nat) : Nat → List Char → Except QuantityFault Nat
  | total, [] => .ok total
  | total, c :: rest =>
    match Hex.digitValue? c.toNat with
    | none => .error .badDigit
    | some digit =>
      if total * 16 + digit < Nat.pow 2 bits then readDigits bits (total * 16 + digit) rest
      else .error .tooLarge

def readUnmarked (bits : Nat) : List Char → Except QuantityFault Nat
  | [] => .error .empty
  | ['+'] => .error .badDigit
  | '+' :: rest => readDigits bits 0 rest
  | chars => readDigits bits 0 chars

def read (bits : Nat) (text : String) : Except QuantityFault Nat :=
  readUnmarked bits (Hex.dropMark text.toList)

end Quantity
end MintWatch
