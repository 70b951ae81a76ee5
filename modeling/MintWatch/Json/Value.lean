/-!
# JSON values

Numbers are kept as `mantissa * 10 ^ exponent`, so that no reading rounds.  The
members of an object keep the order in which they were written and have distinct
keys when they come from the reader.
-/

namespace MintWatch

inductive Json where
  | null
  | bool (value : Bool)
  | number (mantissa : Int) (exponent : Int)
  | string (text : String)
  | array (items : List Json)
  | object (members : List (String × Json))
deriving Inhabited

namespace Json

def int (value : Int) : Json :=
  .number value 0

/-- Puts a member into an object: a key that is there already gets the new value. -/
def put (key : String) (value : Json) : List (String × Json) → List (String × Json)
  | [] => [(key, value)]
  | member :: rest =>
    if member.1 = key then (key, value) :: rest else member :: put key value rest

/-- The members with each key once, with the value given to it last. -/
def lastOfEach (members : List (String × Json)) : List (String × Json) :=
  members.foldl (fun kept member => put member.1 member.2 kept) []

def find? (key : String) (members : List (String × Json)) : Option Json :=
  (members.find? fun member => member.1 == key).map (·.2)

def member? (key : String) : Json → Option Json
  | .object members => find? key members
  | _ => none

def text? : Json → Option String
  | .string text => some text
  | _ => none

end Json
end MintWatch
