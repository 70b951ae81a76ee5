import MintWatch.Abi.Value
/-!
# Showing values

The form of a value in log lines.  Long byte strings, texts and arrays are cut and
followed by their size.
-/

namespace MintWatch
namespace Abi

def shownByteLimit : Nat := 32

def shownCharLimit : Nat := 64

def shownItemLimit : Nat := 10

/-- A natural number: decimal with up to twenty digits, hexadecimal with more. -/
def showNat (number : Nat) : String :=
  let digits := toString number
  if 20 < digits.length then "0x" ++ Hex.ofNat number else digits

def showBytes (bytes : Bytes) : String :=
  if bytes.length ≤ shownByteLimit then Hex.encodeMarked bytes
  else
    Hex.encodeMarked (bytes.take shownByteLimit) ++ "… (" ++ toString bytes.length ++ " bytes)"

def showText (text : String) : String :=
  let chars := text.toList
  if chars.length ≤ shownCharLimit then "\"" ++ text ++ "\""
  else
    "\"" ++ String.ofList (chars.take shownCharLimit) ++ "…\" (" ++ toString chars.length ++ " chars)"

def showArray (items : List String) : String :=
  if items.length ≤ shownItemLimit then "[" ++ String.intercalate ", " items ++ "]"
  else
    "[" ++ String.intercalate ", " (items.take shownItemLimit) ++ ", …] ("
      ++ toString items.length ++ " items)"

namespace Value

mutual

def display : Value → String
  | .bool value => if value then "true" else "false"
  | .int value _ => toString value
  | .uint value _ => showNat value
  | .fixedBytes word size => Hex.encodeMarked (shownBytes word size)
  | .address value => value.hex
  | .function value => value.hex
  | .bytes value => showBytes value
  | .string value => showText value
  | .array items => showArray (displayItems items)
  | .fixedArray items => showArray (displayItems items)
  | .tuple items => "(" ++ String.intercalate ", " (displayItems items) ++ ")"

def displayItems : List Value → List String
  | [] => []
  | value :: rest => display value :: displayItems rest

end

end Value
end Abi
end MintWatch
