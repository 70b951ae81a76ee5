import MintWatch.Bytes.Hex
/-!
# Quoted bytes

A byte shown as the character of that code, in single quotes.  Characters that
would not show are written as escapes.
-/

namespace MintWatch
namespace Text

/-- The inner text of a quoted character with a code below 256. -/
def escapeByte (byte : UInt8) : String :=
  if byte == 0 then "\\0"
  else if byte == 0x09 then "\\t"
  else if byte == 0x0A then "\\n"
  else if byte == 0x0D then "\\r"
  else if byte == 0x27 then "\\'"
  else if byte == 0x5C then "\\\\"
  else if byte < 0x20 || (0x7F ≤ byte && byte ≤ 0xA0) || byte == 0xAD then
    "\\u\x7b" ++ Hex.ofNat byte.toNat ++ "\x7d"
  else String.singleton (Char.ofNat byte.toNat)

def quoteByte (byte : UInt8) : String :=
  "'" ++ escapeByte byte ++ "'"

end Text
end MintWatch
