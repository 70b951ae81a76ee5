/-!
# Content records

Uploaded content that claims a mint on the chain.  A record waits for a transaction,
then for the confirmation of its transaction; once confirmed it stays so.
-/

namespace MintWatch

inductive VerificationState where
  | pending
  | awaitingConfirmation
  | confirmed
deriving DecidableEq

def VerificationState.name : VerificationState → String
  | .pending => "Pending"
  | .awaitingConfirmation => "AwaitingConfirmation"
  | .confirmed => "Confirmed"

structure ContentRecord where
  id : Int
  ownerAddress : String
  /-- The reference that the mint has to carry. -/
  metadataRef : Option String
  txHash : Option String
  confirmed : Bool
deriving DecidableEq

namespace ContentRecord

def state (record : ContentRecord) : VerificationState :=
  match record.confirmed, record.txHash with
  | true, _ => .confirmed
  | false, some _ => .awaitingConfirmation
  | false, none => .pending

def confirm (record : ContentRecord) : ContentRecord :=
  { record with confirmed := true }

def confirmChanges (record : ContentRecord) : Bool :=
  !record.confirmed

end ContentRecord

inductive ContentFilter where
  | awaitingConfirmation
  | byId (id : Int)
  | all
deriving DecidableEq

def ContentFilter.matches (filter : ContentFilter) (record : ContentRecord) : Bool :=
  match filter with
  | .awaitingConfirmation => record.state = .awaitingConfirmation
  | .byId id => record.id = id
  | .all => true

end MintWatch
