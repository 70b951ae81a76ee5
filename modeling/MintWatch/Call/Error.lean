import MintWatch.Abi.Canonical
import MintWatch.Abi.Layout
import MintWatch.Interface.Index
/-!
# Decoding errors

Why an interface cannot be indexed, or calldata cannot be decoded against it.
-/

namespace MintWatch

inductive ArgumentFault where
  | noSelector (size : Nat)
  | shorterThanBytecode (size bytecode : Nat)
  | shorterThanArguments (size expected : Nat)
  | layout (fault : Abi.LayoutFault)
  | word (fault : Abi.WordFault)
  /-- The layout gave another number of values than there are parameters. -/
  | count (values parameters : Nat)
deriving DecidableEq

def ArgumentFault.message : ArgumentFault → String
  | .noSelector size =>
    "calldata too short (" ++ toString size ++ " bytes, need at least 4 for selector)"
  | .shorterThanBytecode size bytecode =>
    "calldata (" ++ toString size ++ " bytes) is shorter than the bytecode ("
      ++ toString bytecode ++ " bytes)"
  | .shorterThanArguments size expected =>
    "calldata (" ++ toString size ++ " bytes) is shorter than the expected arguments ("
      ++ toString expected ++ " bytes)"
  | .layout fault => fault.message
  | .word fault => fault.message
  | .count values parameters =>
    "decoded " ++ toString values ++ " values for " ++ toString parameters ++ " parameters"

inductive AbiError where
  | unknownSelector (selector : Selector)
  | argumentDecode (fault : ArgumentFault)
  | noConstructor
  /-- The size of the constructor's arguments cannot be told. -/
  | unsupportedType (type : String)
  | invalidDescriptor (fault : InterfaceFault)
  /-- No answer at all: the run ends, since a list cannot hold as many values as it should. -/
  | crash
deriving DecidableEq

namespace AbiError

def message : AbiError → String
  | .unknownSelector selector => "unknown function selector " ++ selector.hex
  | .argumentDecode fault => "failed to decode arguments: " ++ fault.message
  | .noConstructor => "interface defines no constructor"
  | .unsupportedType type =>
    "cannot detect constructor arguments: unsupported type `" ++ type ++ "`"
  | .invalidDescriptor fault => "invalid interface descriptor: " ++ fault.message
  | .crash => "capacity overflow"

def name : AbiError → String
  | .unknownSelector _ => "UnknownSelector"
  | .argumentDecode _ => "ArgumentDecode"
  | .noConstructor => "NoConstructor"
  | .unsupportedType _ => "UnsupportedType"
  | .invalidDescriptor _ => "InvalidDescriptor"
  | .crash => "Crash"

end AbiError
end MintWatch
