import MintWatch.Bytes.Hex
import MintWatch.Chain.Quantity
import MintWatch.Json.Printer
import MintWatch.Text.Quoted
/-!
# Errors of a node's answers

An error is a failure to reach the node, or a fault of what the node returned.
-/

namespace MintWatch

def Hex.Fault.message : Hex.Fault → String
  | .oddLength => "odd number of digits"
  | .wrongLength => "invalid string length"
  | .badDigit fault =>
    "invalid character " ++ Text.quoteByte fault.byte ++ " at position " ++ toString fault.position

def Hex.Fault.inputMessage : Hex.Fault → String
  | .oddLength => "Odd number of digits"
  | .wrongLength => "Invalid string length"
  | .badDigit fault =>
    "Invalid character " ++ Text.quoteByte fault.byte ++ " at position " ++ toString fault.position

inductive ResponseFault where
  /-- The carrier of the answer found it unreadable. -/
  | reported (text : String)
  /-- The answer has no result; it may have an error instead. -/
  | noResult (method : String) (error : Option Json)
  | notText (method : String) (result : Json)
  | missingField (field : String)
  | badDigest (text : String) (fault : Hex.Fault)
  | badAddress (text : String) (fault : Hex.Fault)
  | badQuantity (text : String) (fault : QuantityFault)
  | badInput (fault : Hex.Fault)

def ResponseFault.message : ResponseFault → String
  | .reported text => text
  | .noResult method none => "no result for " ++ method
  | .noResult method (some error) => "no result for " ++ method ++ ": " ++ error.compact
  | .notText method result => method ++ " returned " ++ result.compact
  | .missingField field => "transaction field `" ++ field ++ "` missing"
  | .badDigest text fault => "invalid hash `" ++ text ++ "`: " ++ fault.message
  | .badAddress text fault => "invalid address `" ++ text ++ "`: " ++ fault.message
  | .badQuantity text fault => "invalid hex quantity `" ++ text ++ "`: " ++ fault.message
  | .badInput fault => "invalid input data: " ++ fault.inputMessage

inductive RpcError where
  | transport (text : String)
  | status (code : Nat)
  | decode (fault : ResponseFault)
  | notFound (hash : String)

namespace RpcError

def message : RpcError → String
  | .transport text => "rpc transport error: " ++ text
  | .status code => "rpc endpoint returned HTTP " ++ toString code
  | .decode fault => "malformed rpc response: " ++ fault.message
  | .notFound hash => "transaction " ++ hash ++ " not found"

def name : RpcError → String
  | .transport _ => "Transport"
  | .status _ => "Status"
  | .decode _ => "Decode"
  | .notFound _ => "NotFound"

/-- Whether the node was not reached, whatever it would have answered. -/
def isTransport : RpcError → Bool
  | .transport _ => true
  | .status _ => true
  | _ => false

end RpcError
end MintWatch
