/-!
# TOML values

A table remembers how it came about, because that decides whether later lines may add
to it.  Floats and dates are recognised, but their values are not kept.
-/

namespace MintWatch

inductive TableForm where
  | inline
  | header
  /-- Named only inside longer headers. -/
  | implied
  | dotted
deriving DecidableEq

inductive Toml where
  | string (text : String)
  | integer (value : Int)
  | float
  | boolean (value : Bool)
  | date
  | array (items : List Toml)
  | table (form : TableForm) (members : List (String × Toml))
  | tables (items : List (List (String × Toml)))
deriving Inhabited

namespace Toml

abbrev Members := List (String × Toml)

def find? (key : String) (members : Members) : Option Toml :=
  (members.find? fun member => member.1 == key).map (·.2)

def update (key : String) (f : Option Toml → Option Toml) : Members → Option Members
  | [] => (f none).map fun value => [(key, value)]
  | (name, value) :: rest =>
    if name = key then (f (some value)).map fun value => (name, value) :: rest
    else (update key f rest).map ((name, value) :: ·)

def updateLast (f : Members → Option Members) : List Members → Option (List Members)
  | [] => none
  | [last] => (f last).map ([·])
  | first :: rest => (updateLast f rest).map (first :: ·)

/--
Changes the table at a path of header names.  Tables on the way that do not exist yet
are implied; those that are complete cannot be entered.
-/
def within (f : Members → Option Members) : List String → Members → Option Members
  | [], members => f members
  | key :: path, members =>
    update key (fun existing =>
      match existing with
      | none => (within f path []).map (.table .implied)
      | some (.table .inline _) => none
      | some (.table form inner) => (within f path inner).map (.table form)
      | some (.tables items) => (updateLast (within f path) items).map .tables
      | some _ => none) members

/--
Adds a value under a dotted key to a table of a given form.  A dotted key may create
tables and add to those that dotted keys created, and it may pass through, but not add
to, tables that are only implied and tables in an array.
-/
def insertDotted (value : Toml) (form : TableForm) (isRoot : Bool) :
    List String → Members → Option Members
  | [], _ => none
  | [key], members =>
    if !isRoot && form ≠ .dotted then none
    else update key (fun existing => if existing.isSome then none else some value) members
  | key :: path, members =>
    update key (fun existing =>
      match existing with
      | none => (insertDotted value .dotted false path []).map (.table .dotted)
      | some (.table .dotted inner) =>
        (insertDotted value .dotted false path inner).map (.table .dotted)
      | some (.table .implied inner) =>
        (insertDotted value .implied false path inner).map (.table .implied)
      | some (.tables items) =>
        (updateLast (insertDotted value .header false path) items).map .tables
      | some _ => none) members

def insert (path : List String) (value : Toml) (members : Members) : Option Members :=
  insertDotted value .header true path members

def openTable (key : String) : Members → Option Members :=
  update key fun existing =>
    match existing with
    | none => some (.table .header [])
    | some (.table .implied inner) => some (.table .header inner)
    | some _ => none

def openNextTable (key : String) : Members → Option Members :=
  update key fun existing =>
    match existing with
    | none => some (.tables [[]])
    | some (.tables items) => some (.tables (items ++ [[]]))
    | some _ => none

end Toml
end MintWatch
