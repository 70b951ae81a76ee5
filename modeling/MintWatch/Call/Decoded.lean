import MintWatch.Abi.Display
/-!
# Decoded calls

A call of a function with its arguments in the order of declaration.
-/

namespace MintWatch

structure Argument where
  kind : String
  name : String
  value : Abi.Value

/-- A call of a function, or of the constructor. -/
structure DecodedCall where
  name : String
  signature : String
  arguments : List Argument

namespace DecodedCall

def argument? (call : DecodedCall) (name : String) : Option Argument :=
  call.arguments.find? fun argument => argument.name = name

def summary (call : DecodedCall) : String :=
  let shown := call.arguments.map fun argument => argument.name ++ "=" ++ argument.value.display
  call.name ++ "(" ++ String.intercalate ", " shown ++ ")"

end DecodedCall
end MintWatch
