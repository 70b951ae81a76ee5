import MintWatch.Record.Timestamp
/-!
# Storage objects

An uploaded blob that is tracked under its content identifier.  A provisional upload
is scheduled for removal; attaching it keeps it for good.
-/

namespace MintWatch

structure StorageObject where
  cid : String
  mimeType : String
  ownerId : Int
  createdAt : Timestamp
  /-- When a provisional upload is to be removed. -/
  removeAt : Option Timestamp
deriving DecidableEq

namespace StorageObject

def attach (object : StorageObject) : StorageObject :=
  { object with removeAt := none }

def isExpired (object : StorageObject) (now : Timestamp) : Bool :=
  object.removeAt.any fun time => time.before now

def wholeSeconds (object : StorageObject) : StorageObject :=
  { object with
    createdAt := object.createdAt.wholeSecond
    removeAt := object.removeAt.map Timestamp.wholeSecond }

end StorageObject

inductive ObjectFilter where
  /-- Objects with a time of removal, passed or not. -/
  | scheduledForRemoval
  | byCid (cid : String)
  | all
deriving DecidableEq

def ObjectFilter.matches (filter : ObjectFilter) (object : StorageObject) : Bool :=
  match filter with
  | .scheduledForRemoval => object.removeAt.isSome
  | .byCid cid => object.cid = cid
  | .all => true

end MintWatch
