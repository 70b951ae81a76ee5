import MintWatch.Abi.Encoding
import MintWatch.Call.Decoded
import MintWatch.Call.Error
/-!
# Decoding calldata

The calldata of a function call is the function's selector and its encoded
arguments.  A deployment payload is the creation bytecode and the constructor's
encoded arguments; where the bytecode is not known, the section of the arguments is
found by the size that the encoding of placeholder values has.
-/

namespace MintWatch

/-- The argument of a parameter; a blank name is replaced by one that gives the position. -/
def ResolvedParam.argument (param : ResolvedParam) (position : Nat) (value : Abi.Value) :
    Argument :=
  { kind := param.kind
    name := if Text.isAllBlank param.name then "arg" ++ toString position else param.name
    value }

def argumentsFrom : Nat → List ResolvedParam → List Abi.Value → List Argument
  | position, param :: params, value :: values =>
    param.argument position value :: argumentsFrom (position + 1) params values
  | _, _, _ => []

/-- The values of a parameter list, if the layout can be read and all words are canonical. -/
def decodeValues (types : List Abi.Ty) (data : Bytes) : Except ArgumentFault (List Abi.Value) :=
  if types.isEmpty then .ok []
  else
    match Abi.Ty.readParams types data with
    | .error fault => .error (.layout fault)
    | .ok values =>
      match Abi.Ty.checkParams types data with
      | .error fault => .error (.word fault)
      | .ok () => .ok values

def decodeArguments (inputs : List ResolvedParam) (data : Bytes) :
    Except ArgumentFault (List Argument) :=
  match decodeValues (inputs.map ResolvedParam.ty) data with
  | .error fault => .error fault
  | .ok values =>
    if values.length ≠ inputs.length then .error (.count values.length inputs.length)
    else .ok (argumentsFrom 0 inputs values)

namespace Abi

/-- Why there is no placeholder. -/
inductive NoPlaceholder where
  /-- The length of a dynamic array cannot be guessed, and functions are not supported. -/
  | unsupported (type : Ty)
  /-- A list cannot hold the items of a fixed array. -/
  | oversized

mutual

/--
A value of a type that is encoded in as few words as one of a text or byte string of
one word can be.  Parts are built from left to right, and the item of a fixed array
before its copies; the first part that cannot be built is returned as an error.
-/
def Ty.placeholder : Ty → Except NoPlaceholder Value
  | .bool => .ok (.bool false)
  | .int width => .ok (.int 0 width.bits)
  | .uint width => .ok (.uint 0 width.bits)
  | .fixedBytes width => .ok (.fixedBytes (Octets.zero 32) width.bytes)
  | .address => .ok (.address (Octets.zero 20))
  | .string => .ok (.string "0")
  | .bytes => .ok (.bytes [0])
  | .fixedArray item count =>
    (Ty.placeholder item).bind fun value =>
      if Value.listLimit < count.val then .error .oversized
      else .ok (.fixedArray (List.replicate count.val value))
  | .tuple items => (Ty.placeholders items).map .tuple
  | .function => .error (.unsupported .function)
  | .array item => .error (.unsupported (.array item))

def Ty.placeholders : List Ty → Except NoPlaceholder (List Value)
  | [] => .ok []
  | ty :: rest =>
    (Ty.placeholder ty).bind fun value => (Ty.placeholders rest).map (value :: ·)

end

end Abi

def Abi.NoPlaceholder.error : NoPlaceholder → AbiError
  | .unsupported type => .unsupportedType type.name
  | .oversized => .crash

def expectedSize (inputs : List ResolvedParam) : Except AbiError Nat :=
  match Abi.Ty.placeholders (inputs.map ResolvedParam.ty) with
  | .error missing => .error missing.error
  | .ok values => .ok (Abi.Value.encodeParams values).length

/-- The section of a deployment payload that is expected to hold the arguments: its end. -/
def detectArguments (inputs : List ResolvedParam) (payload : Bytes) : Except AbiError Bytes :=
  match expectedSize inputs with
  | .error error => .error error
  | .ok expected =>
    if payload.length < expected then
      .error (.argumentDecode (.shorterThanArguments payload.length expected))
    else .ok (payload.drop (payload.length - expected))

def argumentSection (inputs : List ResolvedParam) (payload : Bytes) (bytecode : Option Bytes) :
    Except AbiError Bytes :=
  match bytecode with
  | none => detectArguments inputs payload
  | some code =>
    if payload.length < code.length then
      .error (.argumentDecode (.shorterThanBytecode payload.length code.length))
    else .ok (payload.drop code.length)

def constructorName : String := "constructor"

namespace InterfaceIndex

def decodeFunction (index : InterfaceIndex) (calldata : Bytes) : Except AbiError DecodedCall :=
  match Octets.ofList? 4 (calldata.take 4) with
  | none => .error (.argumentDecode (.noSelector calldata.length))
  | some selector =>
    match index.lookup selector with
    | none => .error (.unknownSelector selector)
    | some function =>
      match decodeArguments function.inputs (calldata.drop 4) with
      | .error fault => .error (.argumentDecode fault)
      | .ok arguments => .ok ⟨function.name, function.signature, arguments⟩

def decodeConstructor (index : InterfaceIndex) (payload : Bytes) (bytecode : Option Bytes) :
    Except AbiError DecodedCall :=
  match index.constructor? with
  | none => .error .noConstructor
  | some inputs =>
    match argumentSection inputs payload bytecode with
    | .error error => .error error
    | .ok data =>
      match decodeArguments inputs data with
      | .error fault => .error (.argumentDecode fault)
      | .ok arguments => .ok ⟨constructorName, signatureText constructorName inputs, arguments⟩

end InterfaceIndex
end MintWatch
