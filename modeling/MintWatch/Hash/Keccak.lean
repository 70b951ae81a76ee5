import MintWatch.Bytes.Utf8
/-!
# Keccak-256

The sponge over the permutation of 25 lanes of 64 bits, with a rate of 136 bytes.
A message is followed by a byte `01`, then by zeros, and the last byte of its last
block has the high bit set.
-/

namespace MintWatch
namespace Keccak

/-- The lanes of the permutation; lane `(x, y)` stands at `x + 5 * y`. -/
abbrev State := Vector UInt64 25

/-- The lane in column `x` and row `y`, both taken modulo five. -/
def lane (state : State) (x y : Nat) : UInt64 :=
  state.get ⟨x % 5 + 5 * (y % 5), by omega⟩

def build (f : Nat → Nat → UInt64) : State :=
  Vector.ofFn fun i => f (i.val % 5) (i.val / 5)

/-- Rotation towards the high bits, by less than 64 places. -/
def rotate (lane : UInt64) (places : UInt64) : UInt64 :=
  if places = 0 then lane else (lane <<< places) ||| (lane >>> (64 - places))

def parity (state : State) (x : Nat) : UInt64 :=
  lane state x 0 ^^^ lane state x 1 ^^^ lane state x 2 ^^^ lane state x 3 ^^^ lane state x 4

def offsets : Vector UInt64 25 :=
  #v[0, 1, 62, 28, 27,
     36, 44, 6, 55, 20,
     3, 10, 43, 25, 39,
     41, 45, 15, 21, 8,
     18, 2, 61, 56, 14]

def roundConstants : List UInt64 :=
  [0x0000000000000001, 0x0000000000008082, 0x800000000000808A, 0x8000000080008000,
   0x000000000000808B, 0x0000000080000001, 0x8000000080008081, 0x8000000000008009,
   0x000000000000008A, 0x0000000000000088, 0x0000000080008009, 0x000000008000000A,
   0x000000008000808B, 0x800000000000008B, 0x8000000000008089, 0x8000000000008003,
   0x8000000000008002, 0x8000000000000080, 0x000000000000800A, 0x800000008000000A,
   0x8000000080008081, 0x8000000000008080, 0x0000000080000001, 0x8000000080008008]

def mixColumns (state : State) : State :=
  let parities : Vector UInt64 5 := Vector.ofFn fun x => parity state x.val
  let column (x : Nat) : UInt64 := parities.get ⟨x % 5, by omega⟩
  build fun x y => lane state x y ^^^ column (x + 4) ^^^ rotate (column (x + 1)) 1

def moveLanes (state : State) : State :=
  build fun x y => rotate (lane state (x + 3 * y) x) (lane offsets (x + 3 * y) x)

def mixRows (state : State) : State :=
  build fun x y => lane state x y ^^^ (~~~ lane state (x + 1) y &&& lane state (x + 2) y)

def round (state : State) (constant : UInt64) : State :=
  let mixed := mixRows (moveLanes (mixColumns state))
  mixed.set 0 (mixed[0] ^^^ constant)

def permute (state : State) : State :=
  roundConstants.foldl round state

def rate : Nat := 136

def pad (message : Bytes) : Bytes :=
  let missing := rate - message.length % rate
  if missing = 1 then message ++ [0x81]
  else message ++ 0x01 :: (List.replicate (missing - 2) 0 ++ [0x80])

def laneOfBytes (bytes : Bytes) : UInt64 :=
  bytes.foldr (fun byte total => (total <<< 8) ||| byte.toUInt64) 0

def bytesOfLane (lane : UInt64) : Bytes :=
  (List.range 8).map fun i => (lane >>> (8 * i).toUInt64).toUInt8

def absorb (state : State) (block : Bytes) : State :=
  permute <| build fun x y =>
    lane state x y ^^^ laneOfBytes ((block.drop (8 * (x + 5 * y))).take 8)

def absorbAll (state : State) : Nat → Bytes → State
  | 0, _ => state
  | blocks + 1, message => absorbAll (absorb state (message.take rate)) blocks (message.drop rate)

def hash (message : Bytes) : Octets 32 :=
  let padded := pad message
  let final := absorbAll (Vector.replicate 25 0) (padded.length / rate) padded
  Octets.padRight 32 ((List.range 4).flatMap fun i => bytesOfLane (lane final i 0))

def hashText (text : String) : Octets 32 :=
  hash (Utf8.encode text)

end Keccak
end MintWatch
