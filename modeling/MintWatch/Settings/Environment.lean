import MintWatch.Call.Error
import MintWatch.Files.Tree
import MintWatch.Interface.Bundled
import MintWatch.Interface.Document
import MintWatch.Settings.Document
/-!
# Settings in an environment

The settings document is looked up at a place that the environment can name, and the
environment has the last word on some of the settings.  A document that does not exist
is no error.
-/

namespace MintWatch

/-- The variables of the environment that matter; a variable may be set to the empty text. -/
structure Environment where
  settingsPath : Option String
  rpcUrl : Option String
  database : Option String
  contentStoreUrl : Option String
  settingsHome : Option String
  dataHome : Option String
  home : Option String

namespace Environment

def read {m : Type → Type} [Monad m] (value? : String → m (Option String)) : m Environment := do
  return {
    settingsPath := ← value? "MINTCHECK_CONFIG"
    rpcUrl := ← value? "MINTCHECK_RPC_URL"
    database := ← value? "MINTCHECK_DATABASE"
    contentStoreUrl := ← value? "MINTCHECK_CONTENT_STORE_URL"
    settingsHome := ← value? "XDG_CONFIG_HOME"
    dataHome := ← value? "XDG_DATA_HOME"
    home := ← value? "HOME" }

def settingsPath? (environment : Environment) : Option String :=
  let inHome := environment.home.map fun home =>
    Path.joinAll home [".config", "mintcheck", "config.toml"]
  let inSettings := environment.settingsHome.map fun directory =>
    Path.joinAll directory ["mintcheck", "config.toml"]
  (environment.settingsPath.or inSettings).or inHome

def dataDirectory? (environment : Environment) : Option String :=
  let inHome := environment.home.map fun home =>
    Path.joinAll home [".local", "share", "mintcheck"]
  let inData := environment.dataHome.map fun directory => Path.join directory "mintcheck"
  inData.or inHome

end Environment

inductive LoadFault where
  | unreadable (path : String) (fault : FileFault)
  | invalid (path : String) (fault : SettingsFault)
  | overridden (fault : SettingsFault)

def LoadFault.chain : LoadFault → List String
  | .unreadable path fault => ["read config " ++ path, fault.message]
  | .invalid path fault => ["load " ++ path, fault.message]
  | .overridden fault => [fault.message]

inductive InterfaceLoadFault where
  | unreadable (path : String) (fault : FileFault)
  | invalid (path : String) (fault : InterfaceFault)

def InterfaceLoadFault.chain : InterfaceLoadFault → List String
  | .unreadable path fault => ["read interface " ++ path, fault.message]
  | .invalid path fault => ["parse interface " ++ path, (AbiError.invalidDescriptor fault).message]

namespace Settings

def override (settings : Settings) (environment : Environment) : Settings :=
  { settings with
    rpcUrl := environment.rpcUrl.getD settings.rpcUrl
    databasePath := environment.database.or settings.databasePath
    contentStore :=
      { settings.contentStore with
        url := environment.contentStoreUrl.getD settings.contentStore.url } }

/-- The settings in a document, or the default ones if the document does not exist. -/
def readAt (files : Files) (path : String) : Except LoadFault Settings :=
  match files path with
  | .error _ => .ok default
  | .ok entry =>
    match entry.read with
    | .error fault => .error (.unreadable path fault)
    | .ok text => (read text).mapError (.invalid path)

def load (environment : Environment) (files : Files) (path : Option String) :
    Except LoadFault Settings := do
  let settings ←
    match path.or environment.settingsPath? with
    | none => .ok default
    | some path => readAt files path
  ((settings.override environment).check).mapError .overridden

def databasePathIn? (settings : Settings) (environment : Environment) : Option String :=
  settings.databasePath.or
    (environment.dataDirectory?.map fun directory => Path.join directory "mintcheck.sqlite3")

def interface (settings : Settings) (files : Files) : Except InterfaceLoadFault Interface :=
  match settings.interfacePath with
  | none => .ok Interface.bundled
  | some path =>
    match files.read path with
    | .error fault => .error (.unreadable path fault)
    | .ok text => (Interface.read text).mapError (.invalid path)

end Settings

end MintWatch
