/-!
# Points in time

A point in time is a number of seconds since the start of 1970 and of nanoseconds
after that second.
-/

namespace MintWatch

structure Timestamp where
  seconds : Int
  nanoseconds : Nat
deriving DecidableEq

namespace Timestamp

def ofSeconds (seconds : Int) : Timestamp :=
  ⟨seconds, 0⟩

def wholeSecond (time : Timestamp) : Timestamp :=
  ofSeconds time.seconds

def before (a b : Timestamp) : Bool :=
  a.seconds < b.seconds || (a.seconds == b.seconds && a.nanoseconds < b.nanoseconds)

end Timestamp
end MintWatch
