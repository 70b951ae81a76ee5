import MintWatch.Text.Characters
/-!
# Settings

What an operator can choose: the node, the interface of the contract, the stores and
how often the tasks run.  Everything has a default.
-/

namespace MintWatch

structure ContentStoreSettings where
  url : String
  username : Option String
  password : Option String
deriving DecidableEq

def ContentStoreSettings.default : ContentStoreSettings :=
  ⟨"http://127.0.0.1:9094", none, none⟩

structure Intervals where
  tick : UInt64
  verify : UInt64
  reclaim : UInt64
deriving DecidableEq

def Intervals.default : Intervals :=
  ⟨5, 30, 300⟩

structure Settings where
  rpcUrl : String
  /-- Where the record database is kept, if not at its usual place. -/
  databasePath : Option String
  interfacePath : Option String
  mintFunction : String
  contentStore : ContentStoreSettings
  intervals : Intervals
deriving DecidableEq

inductive SettingsFault where
  | malformed
  | zeroTick
  | emptyMintFunction
deriving DecidableEq

def SettingsFault.message : SettingsFault → String
  | .malformed => "invalid config"
  | .zeroTick => "scheduler.tick_secs must be greater than zero"
  | .emptyMintFunction => "mint_function must not be empty"

namespace Settings

def default : Settings :=
  { rpcUrl := "http://127.0.0.1:8545"
    databasePath := none
    interfacePath := none
    mintFunction := "mintNFT"
    contentStore := .default
    intervals := .default }

def check (settings : Settings) : Except SettingsFault Settings :=
  if settings.intervals.tick = 0 then .error .zeroTick
  else if Text.isAllBlank settings.mintFunction then .error .emptyMintFunction
  else .ok settings

end Settings
end MintWatch
