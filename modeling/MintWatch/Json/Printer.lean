import MintWatch.Bytes.Hex
import MintWatch.Json.Value
/-!
# Printing JSON

The compact form, without white space, and with the members of every object in
the order of their keys.
-/

namespace MintWatch
namespace Json

def escapeChar (c : Char) : String :=
  if c = '"' then "\\\""
  else if c = '\\' then "\\\\"
  else if c = '\n' then "\\n"
  else if c = '\r' then "\\r"
  else if c = '\t' then "\\t"
  else if c = '\x08' then "\\b"
  else if c = '\x0c' then "\\f"
  else if c.toNat < 0x20 then
    "\\u00" ++ String.ofList [Hex.digit (c.toNat / 16), Hex.digit (c.toNat % 16)]
  else String.singleton c

def quote (text : String) : String :=
  text.toList.foldl (fun written c => written ++ escapeChar c) "\"" ++ "\""

/-- A number; one that is not written out as a whole number keeps its power of ten. -/
def renderNumber (mantissa exponent : Int) : String :=
  if exponent = 0 then toString mantissa else toString mantissa ++ "e" ++ toString exponent

def insertByKey (pair : String × String) : List (String × String) → List (String × String)
  | [] => [pair]
  | other :: rest => if pair.1 < other.1 then pair :: other :: rest else other :: insertByKey pair rest

mutual

def compact : Json → String
  | .null => "null"
  | .bool value => if value then "true" else "false"
  | .number mantissa exponent => renderNumber mantissa exponent
  | .string text => quote text
  | .array items => "[" ++ String.intercalate "," (compactItems items) ++ "]"
  | .object members =>
    let ordered := (compactMembers members).foldr insertByKey []
    "\x7b" ++ String.intercalate "," (ordered.map fun pair => quote pair.1 ++ ":" ++ pair.2) ++ "\x7d"

def compactItems : List Json → List String
  | [] => []
  | item :: rest => compact item :: compactItems rest

def compactMembers : List (String × Json) → List (String × String)
  | [] => []
  | (key, value) :: rest => (key, compact value) :: compactMembers rest

end

end Json
end MintWatch
