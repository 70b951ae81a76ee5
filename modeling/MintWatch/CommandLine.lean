/-!
# The command line

The options of the program, as they are given one argument after the other.
-/

namespace MintWatch

structure Options where
  settingsPath : Option String
  rpcUrl : Option String
  /-- Whether every task is run once and the program then ends. -/
  once : Bool
deriving DecidableEq

inductive Command where
  | run (options : Options)
  | help
  | version
deriving DecidableEq

inductive CommandFault where
  | unexpected (argument : String)
  | missingValue (option : String)
  | repeated (option : String)
deriving DecidableEq

def CommandFault.message : CommandFault → String
  | .unexpected argument => "unexpected argument '" ++ argument ++ "' found"
  | .missingValue option => "a value is required for '" ++ option ++ "' but none was supplied"
  | .repeated option => "the argument '" ++ option ++ "' cannot be used multiple times"

namespace Command

def usage : String :=
  "Usage: mintcheck [--config <CONFIG>] [--rpc <RPC>] [--once]"

/-- The value in an argument that begins with an option and an equals sign. -/
def valueIn? (option argument : String) : Option String :=
  let start := (option ++ "=").toList
  if start.isPrefixOf argument.toList then
    some (String.ofList (argument.toList.drop start.length))
  else none

def withSettingsPath (options : Options) (path : String) : Except CommandFault Options :=
  if options.settingsPath.isSome then .error (.repeated "--config")
  else .ok { options with settingsPath := some path }

def withRpcUrl (options : Options) (url : String) : Except CommandFault Options :=
  if options.rpcUrl.isSome then .error (.repeated "--rpc")
  else .ok { options with rpcUrl := some url }

def parseFrom (options : Options) : List String → Except CommandFault Command
  | [] => .ok (.run options)
  | "--help" :: _ => .ok .help
  | "-h" :: _ => .ok .help
  | "--version" :: _ => .ok .version
  | "-V" :: _ => .ok .version
  | "--once" :: rest =>
    if options.once then .error (.repeated "--once")
    else parseFrom { options with once := true } rest
  | ["--config"] => .error (.missingValue "--config <CONFIG>")
  | ["--rpc"] => .error (.missingValue "--rpc <RPC>")
  | "--config" :: path :: rest => do parseFrom (← withSettingsPath options path) rest
  | "--rpc" :: url :: rest => do parseFrom (← withRpcUrl options url) rest
  | argument :: rest =>
    match valueIn? "--config" argument, valueIn? "--rpc" argument with
    | some path, _ => do parseFrom (← withSettingsPath options path) rest
    | _, some url => do parseFrom (← withRpcUrl options url) rest
    | none, none => .error (.unexpected argument)

def parse (arguments : List String) : Except CommandFault Command :=
  parseFrom ⟨none, none, false⟩ arguments

end Command
end MintWatch
