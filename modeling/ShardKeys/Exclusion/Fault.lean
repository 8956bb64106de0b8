import ShardKeys.Exclusion.Interval
import ShardKeys.Text.Numeral

/-!
What can be wrong with excluded ranges, in a pair of bounds or in a written list of ranges.
-/

namespace ShardKeys

/-- What is wrong with one written range. -/
inductive RangeFault where
  | unbracketed
  | notTwoElements
  | negative
  | badBound (text : String) (fault : Text.NumeralFault)
  | inverted
  deriving DecidableEq, Repr

/-- Why no exclusion set comes of what was given. -/
inductive ExclusionFault where
  | inverted (bounds : Bounds)
  | badRange (part : String) (fault : RangeFault)
  deriving DecidableEq, Repr

def RangeFault.message : RangeFault → String
  | .unbracketed => "range is not enclosed between '[' and ']'"
  | .notTwoElements => "range does not contain exactly two elements"
  | .negative => "bounds must be non-negative"
  | .badBound text fault => "'" ++ text ++ "' is not a valid bound (" ++ fault.message ++ ")"
  | .inverted => "lower bound is greater than upper bound"

def ExclusionFault.message : ExclusionFault → String
  | .inverted b =>
      "exclusion range lower bound " ++ toString b.lower.toNat ++ " is greater than upper bound "
        ++ toString b.upper.toNat
  | .badRange part fault =>
      "invalid exclusion range '" ++ part ++ "': " ++ fault.message
        ++ "; ranges must be given between square brackets, e.g. '[1,1000]'"

/-- The interval between two bounds in order. -/
def Interval.ofBounds (b : Bounds) : Except ExclusionFault Interval :=
  match b.toInterval? with
  | some i => .ok i
  | none => .error (.inverted b)

end ShardKeys
