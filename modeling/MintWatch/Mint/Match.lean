import MintWatch.Call.Decoded
import MintWatch.Record.Content
import MintWatch.Text.Characters
/-!
# Matching calls with records

A call proves the mint of a record if it calls the mint function with the record's
owner as its first argument and the record's metadata reference as its second.
-/

namespace MintWatch

inductive MintMismatch where
  | wrongFunction (expected found : String)
  | unexpectedArguments (signature : String)
  | invalidOwner (owner : String)
  | wrongRecipient (expected found : Address)
  | missingMetadata
  | wrongMetadata (expected found : String)
deriving DecidableEq

namespace MintMismatch

def message : MintMismatch → String
  | .wrongFunction expected found => "called " ++ found ++ " instead of " ++ expected
  | .unexpectedArguments signature => "unexpected argument layout " ++ signature
  | .invalidOwner owner => "owner address `" ++ owner ++ "` is not a valid address"
  | .wrongRecipient expected found =>
    "recipient " ++ found.checksummed ++ " is not the owner " ++ expected.checksummed
  | .missingMetadata => "record has no metadata reference"
  | .wrongMetadata expected found =>
    "metadata `" ++ found ++ "` does not match stored `" ++ expected ++ "`"

def name : MintMismatch → String
  | .wrongFunction _ _ => "WrongFunction"
  | .unexpectedArguments _ => "UnexpectedArguments"
  | .invalidOwner _ => "InvalidOwner"
  | .wrongRecipient _ _ => "WrongRecipient"
  | .missingMetadata => "MissingMetadata"
  | .wrongMetadata _ _ => "WrongMetadata"

end MintMismatch

def DecodedCall.mintArguments? (call : DecodedCall) : Option (Address × String) :=
  match call.arguments with
  | recipient :: metadata :: _ =>
    match recipient.value, metadata.value with
    | .address address, .string text => some (address, text)
    | _, _ => none
  | _ => none

/-- The address of a record's owner, read without blanks around it. -/
def ContentRecord.owner? (record : ContentRecord) : Option Address :=
  (Octets.parse 20 (Text.trim record.ownerAddress)).toOption

/-- Checks that a call proves the mint of a record; the first mismatch is reported. -/
def checkMint (call : DecodedCall) (record : ContentRecord) (mintFunction : String) :
    Except MintMismatch Unit :=
  if call.name ≠ mintFunction then .error (.wrongFunction mintFunction call.name)
  else
    match call.mintArguments? with
    | none => .error (.unexpectedArguments call.signature)
    | some (recipient, metadata) =>
      match record.owner? with
      | none => .error (.invalidOwner record.ownerAddress)
      | some owner =>
        if recipient ≠ owner then .error (.wrongRecipient owner recipient)
        else
          match record.metadataRef with
          | none => .error .missingMetadata
          | some expected =>
            if metadata ≠ expected then .error (.wrongMetadata expected metadata) else .ok ()

end MintWatch
