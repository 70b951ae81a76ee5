import MintWatch.Toml.Scalar
import MintWatch.Toml.Text
/-!
# Reading TOML

A document is a sequence of statements: a header, or a key with its value.  A header
opens a table, or another table of an array, and the keys after it belong to that table.
-/

namespace MintWatch
namespace Toml

/-! ## Blanks -/

def skipLines (inComment : Bool) : List Char → List Char
  | [] => []
  | '\n' :: rest => skipLines false rest
  | '\r' :: '\n' :: rest => skipLines false rest
  | c :: rest =>
    if inComment then if isPrintable c then skipLines true rest else c :: rest
    else if c = '#' then skipLines true rest
    else if isGap c then skipLines false rest
    else c :: rest

def dropLineEnd : List Char → Option (List Char)
  | [] => some []
  | '\n' :: rest => some rest
  | '\r' :: '\n' :: rest => some rest
  | _ => none

def finishLine (chars : List Char) : Option (List Char) :=
  match skipGap chars with
  | '#' :: rest => dropLineEnd (rest.dropWhile isPrintable)
  | rest => dropLineEnd rest

/-! ## Keys -/

def isBareKeyChar (c : Char) : Bool :=
  c.isAlphanum || c = '-' || c = '_'

def readKey (chars : List Char) : Option (String × List Char) :=
  match readShortText chars with
  | some (key, rest) => some (String.ofList key, rest)
  | none =>
    let key := chars.takeWhile isBareKeyChar
    if key.isEmpty then none else some (String.ofList key, chars.dropWhile isBareKeyChar)

def readPath : Nat → List Char → Option (List String × List Char)
  | 0, _ => none
  | limit + 1, chars => do
    let (key, rest) ← readKey (skipGap chars)
    match skipGap rest with
    | '.' :: rest => (readPath limit rest).map fun read => (key :: read.1, read.2)
    | rest => return ([key], rest)

def depthLimit : Nat := 79

/-! ## Values -/

/--
Reads the items of an array up to its end, of which a comma may stand in front.  At most
`limit` items are read; every item has at least one character, so the length of the text
is limit enough.
-/
def readItems (item : List Char → Option (Toml × List Char)) :
    Nat → List Char → Option (List Toml × List Char)
  | 0, _ => none
  | limit + 1, chars =>
    match skipLines false chars with
    | ']' :: rest => some ([], rest)
    | chars => do
      let (first, rest) ← item chars
      match skipLines false rest with
      | ']' :: rest => return ([first], rest)
      | ',' :: rest => (readItems item limit rest).map fun read => (first :: read.1, read.2)
      | _ => none

def readAssignment (value : List Char → Option (Toml × List Char)) (chars : List Char) :
    Option ((List String × Toml) × List Char) := do
  let (path, rest) ← readPath depthLimit chars
  let (assigned, rest) ← value (skipGap (← expect '=' rest))
  return ((path, assigned), rest)

/--
Adds the assignments of an inline table to its members up to its end.  At most `limit`
assignments are read, as with the items of an array.
-/
def readInline (value : List Char → Option (Toml × List Char)) :
    Nat → Members → List Char → Option (Members × List Char)
  | 0, _, _ => none
  | limit + 1, members, chars => do
    let ((path, assigned), rest) ← readAssignment value chars
    let members ← insert path assigned members
    match skipGap rest with
    | '}' :: rest => return (members, rest)
    | ',' :: rest => readInline value limit members rest
    | _ => none

def readPlain (chars : List Char) : Option (Toml × List Char) :=
  match chars with
  | [] => none
  | c :: _ =>
    if c = '"' || c.toNat = 0x27 then
      (readText chars).map fun read => (.string (String.ofList read.1), read.2)
    else readScalar chars

def readValue : Nat → List Char → Option (Toml × List Char)
  | 0, chars => readPlain chars
  | depth + 1, chars =>
    match chars with
    | '[' :: rest =>
      (readItems (readValue depth) chars.length rest).map fun read => (.array read.1, read.2)
    | '{' :: rest =>
      match skipGap rest with
      | '}' :: rest => some (.table .inline [], rest)
      | rest =>
        (readInline (readValue depth) chars.length [] rest).map fun read =>
          (.table .inline read.1, read.2)
    | chars => readPlain chars

/-! ## Documents -/

inductive Statement where
  | openTable (path : List String)
  | openNextTable (path : List String)
  | assign (path : List String) (value : Toml)

def readStatement (chars : List Char) : Option (Statement × List Char) :=
  match chars with
  | '[' :: '[' :: rest => do
    let (path, rest) ← readPath depthLimit rest
    let rest ← finishLine (← expect ']' (← expect ']' rest))
    return (.openNextTable path, rest)
  | '[' :: rest => do
    let (path, rest) ← readPath depthLimit rest
    return (.openTable path, ← finishLine (← expect ']' rest))
  | chars => do
    let ((path, value), rest) ← readAssignment (readValue depthLimit) chars
    return (.assign path value, ← finishLine rest)

def readStatements : Nat → List Char → Option (List Statement)
  | 0, _ => none
  | limit + 1, chars =>
    match skipLines false chars with
    | [] => some []
    | chars => do
      let (first, rest) ← readStatement chars
      (readStatements limit rest).map (first :: ·)

/-- A document in the making: its members, and the path of the table that is open. -/
structure Draft where
  members : Members
  openPath : List String

def atParent (f : String → Members → Option Members) (path : List String) (members : Members) :
    Option Members :=
  match path.getLast? with
  | none => none
  | some key => within (f key) path.dropLast members

def Draft.execute (draft : Draft) : Statement → Option Draft
  | .openTable path => (atParent Toml.openTable path draft.members).map fun members => ⟨members, path⟩
  | .openNextTable path =>
    (atParent Toml.openNextTable path draft.members).map fun members => ⟨members, path⟩
  | .assign path value =>
    (within (insert path value) draft.openPath draft.members).map fun members =>
      { draft with members }

def dropByteOrderMark : List Char → List Char
  | '\uFEFF' :: rest => rest
  | chars => chars

def read? (text : String) : Option Members := do
  let chars := dropByteOrderMark text.toList
  let statements ← readStatements (chars.length + 1) chars
  let draft ← statements.foldlM Draft.execute ⟨[], []⟩
  return draft.members

end Toml
end MintWatch
