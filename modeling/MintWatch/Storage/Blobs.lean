import MintWatch.Bytes.Hex
import MintWatch.Hash.Keccak
/-!
# The blob store

Blobs are stored under a reference that is the hash of their bytes, so that storing the
same bytes again changes nothing but the stored type.
-/

namespace MintWatch

structure Blob where
  mimeType : String
  bytes : Bytes
deriving DecidableEq

def blobReference (bytes : Bytes) : String :=
  Hex.encode (Keccak.hash bytes).toList

structure BlobStore where
  blobs : List (String × Blob)

namespace BlobStore

def empty : BlobStore :=
  ⟨[]⟩

def remove (store : BlobStore) (reference : String) : BlobStore :=
  ⟨store.blobs.filter fun entry => entry.1 ≠ reference⟩

/-- Stores a blob; also returns its reference. -/
def add (store : BlobStore) (bytes : Bytes) (mimeType : String) : BlobStore × String :=
  let reference := blobReference bytes
  (⟨(reference, ⟨mimeType, bytes⟩) :: (store.remove reference).blobs⟩, reference)

def contains (store : BlobStore) (reference : String) : Bool :=
  store.blobs.any fun entry => entry.1 = reference

def size (store : BlobStore) : Nat :=
  store.blobs.length

end BlobStore
end MintWatch
