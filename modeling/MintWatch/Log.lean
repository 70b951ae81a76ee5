/-!
# Log events

An event has a level, a message and named fields.  Fields keep the order in which
they are given.
-/

namespace MintWatch

inductive Level where
  | info
  | warn
  | error
deriving DecidableEq

def Level.name : Level → String
  | .info => "INFO"
  | .warn => "WARN"
  | .error => "ERROR"

structure LogEvent where
  level : Level
  message : String
  fields : List (String × String)
deriving DecidableEq

namespace LogEvent

def info (message : String) (fields : List (String × String)) : LogEvent :=
  ⟨.info, message, fields⟩

def warn (message : String) (fields : List (String × String)) : LogEvent :=
  ⟨.warn, message, fields⟩

def error (message : String) (fields : List (String × String)) : LogEvent :=
  ⟨.error, message, fields⟩

def line (event : LogEvent) : String :=
  String.intercalate " "
    (event.level.name :: event.message :: event.fields.map fun field => field.1 ++ "=" ++ field.2)

end LogEvent
end MintWatch
