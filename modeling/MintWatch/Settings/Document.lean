import MintWatch.Settings.Basic
import MintWatch.Toml.Reader
/-!
# Settings documents

Settings are written as a TOML document with a table for the content store and one for
the intervals.  What is not given keeps its default, and unknown keys are ignored.
-/

namespace MintWatch

namespace Toml

/-- Whether a value can stand for a table: a table, or an array that gives the values in order. -/
def isTableLike : Toml → Bool
  | .table _ _ => true
  | .tables _ => true
  | .array _ => true
  | .date => true
  | _ => false

/--
The value of a table for a key, or the one that an array has in its place; what an array
has beyond the last place is ignored.
-/
def field? (value : Toml) (place : Nat) (key : String) : Option Toml :=
  match value with
  | .table _ members => find? key members
  | .tables items => items[place]?.map (.table .header)
  | .array items => items[place]?
  | _ => none

def text? : Toml → Option String
  | .string text => some text
  | _ => none

def seconds? : Toml → Option UInt64
  | .integer value => if 0 ≤ value then some (UInt64.ofNat value.toNat) else none
  | _ => none

def readOr {α : Type} (default : α) (read : Toml → Option α) : Option Toml → Option α
  | none => some default
  | some value => read value

end Toml

def ContentStoreSettings.ofToml? (value : Toml) : Option ContentStoreSettings :=
  if value.isTableLike then do
    let url ← Toml.readOr ContentStoreSettings.default.url Toml.text? (value.field? 0 "url")
    let username ← Toml.readOr none (fun value => value.text?.map some) (value.field? 1 "username")
    let password ← Toml.readOr none (fun value => value.text?.map some) (value.field? 2 "password")
    return { url, username, password }
  else none

def Intervals.ofToml? (value : Toml) : Option Intervals :=
  if value.isTableLike then do
    let tick ← Toml.readOr Intervals.default.tick Toml.seconds? (value.field? 0 "tick_secs")
    let verify ←
      Toml.readOr Intervals.default.verify Toml.seconds? (value.field? 1 "verify_every_secs")
    let reclaim ←
      Toml.readOr Intervals.default.reclaim Toml.seconds? (value.field? 2 "reclaim_every_secs")
    return { tick, verify, reclaim }
  else none

namespace Settings

def ofMembers? (members : Toml.Members) : Option Settings := do
  let find (key : String) : Option Toml := Toml.find? key members
  let optionalText (value : Toml) : Option (Option String) := value.text?.map some
  let rpcUrl ← Toml.readOr default.rpcUrl Toml.text? (find "rpc_url")
  let databasePath ← Toml.readOr default.databasePath optionalText (find "database_path")
  let interfacePath ← Toml.readOr default.interfacePath optionalText (find "interface_path")
  let mintFunction ← Toml.readOr default.mintFunction Toml.text? (find "mint_function")
  let contentStore ←
    Toml.readOr default.contentStore ContentStoreSettings.ofToml? (find "content_store")
  let intervals ← Toml.readOr default.intervals Intervals.ofToml? (find "scheduler")
  return { rpcUrl, databasePath, interfacePath, mintFunction, contentStore, intervals }

def read (text : String) : Except SettingsFault Settings :=
  match (Toml.read? text).bind ofMembers? with
  | none => .error .malformed
  | some settings => settings.check

end Settings
end MintWatch
