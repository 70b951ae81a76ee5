import MintWatch.Files.Path
/-!
# File trees

The files that a program can read, as far as it can tell: a path leads to a directory,
to the text of a file, or nowhere.
-/

namespace MintWatch

inductive FileFault where
  | notFound
  | notADirectory
  | isADirectory
  | other (text : String)
deriving DecidableEq

def FileFault.message : FileFault → String
  | .notFound => "No such file or directory (os error 2)"
  | .notADirectory => "Not a directory (os error 20)"
  | .isADirectory => "Is a directory (os error 21)"
  | .other text => text

inductive FileEntry where
  | directory
  | file (text : Except FileFault String)

def FileEntry.read : FileEntry → Except FileFault String
  | .directory => .error .isADirectory
  | .file text => text

abbrev Files := String → Except FileFault FileEntry

def Files.read (files : Files) (path : String) : Except FileFault String :=
  (files path).bind FileEntry.read

/--
A working directory: the files in it and below by the names that lead to them, and the
directories that are there besides those that hold the files.
-/
structure FileTree where
  files : List (List String × String)
  directories : List (List String)

inductive FilePosition where
  | inside (names : List String)
  | outside

namespace FileTree

def ofList (entries : List (String × Option String)) : FileTree :=
  let names (path : String) : List String :=
    (Path.steps path).filterMap fun step =>
      match step with
      | .enter name => some name
      | _ => none
  { files := entries.filterMap fun entry => entry.2.map fun text => (names entry.1, text)
    directories :=
      entries.filterMap fun entry => if entry.2.isNone then some (names entry.1) else none }

def file? (tree : FileTree) (names : List String) : Option String :=
  (tree.files.find? fun entry => entry.1 = names).map (·.2)

/-- Whether names lead to a directory: the working directory, a listed one or one on the way. -/
def isDirectory (tree : FileTree) (names : List String) : Bool :=
  names.isEmpty || tree.directories.any (names.isPrefixOf ·)
    || tree.files.any fun entry => names.isPrefixOf entry.1 && entry.1 ≠ names

def advance (tree : FileTree) (position : FilePosition) (step : Path.Step) :
    Except FileFault FilePosition :=
  match position with
  | .outside =>
    match step with
    | .enter _ => .error .notFound
    | _ => .ok .outside
  | .inside names =>
    if tree.isDirectory names then
      match step with
      | .stay => .ok (.inside names)
      | .leave => .ok (if names.isEmpty then .outside else .inside names.dropLast)
      | .enter name =>
        let entered := names ++ [name]
        if tree.isDirectory entered || (tree.file? entered).isSome then .ok (.inside entered)
        else .error .notFound
    else .error .notADirectory

def entryAt (tree : FileTree) : FilePosition → FileEntry
  | .outside => .directory
  | .inside names =>
    match tree.file? names with
    | some text => .file (.ok text)
    | none => .directory

def entry (tree : FileTree) : Files := fun path =>
  if path.isEmpty then .error .notFound
  else
    let start : FilePosition := if Path.isAbsolute path then .outside else .inside []
    ((Path.steps path).foldlM tree.advance start).map tree.entryAt

end FileTree
end MintWatch
