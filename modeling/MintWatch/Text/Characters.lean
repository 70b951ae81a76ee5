/-!
# Characters of texts

The characters with the Unicode property White_Space, with the trimming of text by it, and
decimal digits, with the numbers they denote.
-/

namespace MintWatch
namespace Text

/-- Whether a character has the property White_Space. -/
def isBlank (c : Char) : Bool :=
  let code := c.toNat
  (0x9 ≤ code && code ≤ 0xD) || code == 0x20 || code == 0x85 || code == 0xA0 ||
  code == 0x1680 || (0x2000 ≤ code && code ≤ 0x200A) || code == 0x2028 || code == 0x2029 ||
  code == 0x202F || code == 0x205F || code == 0x3000

def trimStart (chars : List Char) : List Char :=
  chars.dropWhile isBlank

def trimChars (chars : List Char) : List Char :=
  (trimStart (trimStart chars).reverse).reverse

def trim (text : String) : String :=
  String.ofList (trimChars text.toList)

def isAllBlank (text : String) : Bool :=
  text.toList.all isBlank

/-- The number a sequence of decimal digits denotes, zero for no digits. -/
def decimal (digits : List Char) : Nat :=
  digits.foldl (fun total c => total * 10 + (c.toNat - 48)) 0

end Text
end MintWatch
