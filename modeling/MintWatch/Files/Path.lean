/-!
# Paths

A path is a text of names with slashes between them.
-/

namespace MintWatch
namespace Path

/-- The path of a name in a directory; the empty path stands for no directory. -/
def join (directory name : String) : String :=
  if directory.isEmpty then name
  else if directory.toList.getLast? = some '/' then directory ++ name
  else directory ++ "/" ++ name

def joinAll (directory : String) (names : List String) : String :=
  names.foldl join directory

def isAbsolute (path : String) : Bool :=
  path.toList.head? = some '/'

def splitNames : List Char → List (List Char)
  | [] => [[]]
  | c :: rest =>
    if c = '/' then [] :: splitNames rest
    else
      match splitNames rest with
      | [] => [[c]]
      | name :: names => (c :: name) :: names

inductive Step where
  | enter (name : String)
  | leave
  /-- Stays, but only in a directory. -/
  | stay
deriving DecidableEq

def Step.ofName (name : String) : Step :=
  if name = "" || name = "." then .stay
  else if name = ".." then .leave
  else .enter name

def steps (path : String) : List Step :=
  (splitNames path.toList).map fun name => .ofName (String.ofList name)

end Path
end MintWatch
