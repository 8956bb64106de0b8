/-!
Spans of time in words. A span is written in the largest unit of `s`, `ms`, `µs` and `ns` that fits
into it at least once, as a decimal without trailing zeros that is exact to the nanosecond.
-/

namespace ShardKeys.Text

/-- A unit of time: its name and the decimal exponent of its length in nanoseconds. -/
structure TimeUnit where
  name : String
  exponent : Nat

def TimeUnit.length (u : TimeUnit) : Nat :=
  Nat.pow 10 u.exponent

/-- The units that a span may be written in, largest first. -/
def timeUnits : List TimeUnit :=
  [⟨"s", 9⟩, ⟨"ms", 6⟩, ⟨"µs", 3⟩]

/-- The largest unit not longer than the span; a span below a microsecond counts nanoseconds. -/
def timeUnitOf (nanos : Nat) : TimeUnit :=
  (timeUnits.find? fun u => u.length ≤ nanos).getD ⟨"ns", 0⟩

/-- The decimals of `part / 10 ^ width`, without trailing zeros. -/
def decimals (width part : Nat) : List Char :=
  let digits := (toString part).toList
  let padded := List.replicate (width - digits.length) '0' ++ digits
  (padded.reverse.dropWhile (· = '0')).reverse

def durationText (nanos : Nat) : String :=
  let u := timeUnitOf nanos
  let fraction := decimals u.exponent (nanos % u.length)
  let point := if fraction.isEmpty then "" else "."
  toString (nanos / u.length) ++ point ++ String.ofList fraction ++ u.name

end ShardKeys.Text
