/-!
# Durations

A duration is a number of nanoseconds whose whole seconds fit 64 bits.
-/

namespace MintWatch

def longestNanoseconds : Nat :=
  (UInt64.size - 1) * 1000000000 + 999999999

structure Duration where
  nanoseconds : Nat
  le_longest : nanoseconds ≤ longestNanoseconds
deriving DecidableEq

namespace Duration

def ofNanoseconds? (nanoseconds : Nat) : Option Duration :=
  if h : nanoseconds ≤ longestNanoseconds then some ⟨nanoseconds, h⟩ else none

def longest : Duration :=
  ⟨longestNanoseconds, Nat.le_refl _⟩

def millisecond : Duration :=
  ⟨1000000, by decide⟩

def ofSeconds (seconds : UInt64) : Duration :=
  ⟨seconds.toNat * 1000000000, by
    have bound := seconds.toNat_lt
    simp only [longestNanoseconds, UInt64.size] at bound ⊢
    omega⟩

def max (a b : Duration) : Duration :=
  if a.nanoseconds ≤ b.nanoseconds then b else a

def times? (duration : Duration) (count : Nat) : Option Duration :=
  ofNanoseconds? (duration.nanoseconds * count)

def fractionDigits (places fraction : Nat) : List Char :=
  let digits := (toString fraction).toList
  let padded := List.replicate (places - digits.length) '0' ++ digits
  (padded.reverse.dropWhile (· = '0')).reverse

/-- A number of units of `10 ^ places` parts each, given by the parts. -/
def showUnits (parts places : Nat) (unit : String) : String :=
  let whole := toString (parts / Nat.pow 10 places)
  match fractionDigits places (parts % Nat.pow 10 places) with
  | [] => whole ++ unit
  | digits => whole ++ "." ++ String.ofList digits ++ unit

def display (duration : Duration) : String :=
  let parts := duration.nanoseconds
  if 1000000000 ≤ parts then showUnits parts 9 "s"
  else if 1000000 ≤ parts then showUnits parts 6 "ms"
  else if 1000 ≤ parts then showUnits parts 3 "µs"
  else showUnits parts 0 "ns"

end Duration
end MintWatch
