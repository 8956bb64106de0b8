import ShardKeys.Exclusion.Fault
import ShardKeys.Exclusion.Set
import ShardKeys.Text.Blank

/-!
Reading excluded ranges. A text is blank, or it is a list of ranges separated by semicolons; a range
is a pair of unsigned numerals, separated by a comma and enclosed in square brackets, in ascending
order. Blanks may stand around every part.
-/

namespace ShardKeys

namespace Interval

/-- The text between an opening bracket at the start and a closing bracket at the end. -/
def unbracket? : List Char → Option (List Char)
  | '[' :: rest => if rest.getLast? = some ']' then some rest.dropLast else none
  | _ => none

def parseBound (cs : List Char) : Except RangeFault Counter :=
  if cs.head? = some '-' then .error .negative
  else
    match Text.readUnsigned Counter.last.toNat cs with
    | .ok n => .ok (UInt64.ofNat n)
    | .error fault => .error (.badBound (String.ofList cs) fault)

/-- Reads one range, without blanks around it. -/
def parse (cs : List Char) : Except RangeFault Interval :=
  match unbracket? cs with
  | none => .error .unbracketed
  | some inner =>
      match (inner.splitOn ',').map Text.strip with
      | [lower, upper] => do
          let lower ← parseBound lower
          let upper ← parseBound upper
          match Bounds.toInterval? ⟨lower, upper⟩ with
          | some i => .ok i
          | none => .error .inverted
      | _ => .error .notTwoElements

end Interval

namespace ExclusionSet

/-- Reads one part of a list of ranges; a part at fault is reported with its text. -/
def parsePart (part : List Char) : Except ExclusionFault Interval :=
  match Interval.parse part with
  | .ok i => .ok i
  | .error fault => .error (.badRange (String.ofList part) fault)

def parseChars (cs : List Char) : Except ExclusionFault ExclusionSet :=
  if cs.isEmpty then .ok empty
  else (((cs.splitOn ';').map Text.strip).mapM parsePart).map ofIntervals

def parse (s : String) : Except ExclusionFault ExclusionSet :=
  parseChars (Text.strip s.toList)

/-- The set of the counters between any of the pairs of bounds, each of which must be in order. -/
def ofBounds (bs : List Bounds) : Except ExclusionFault ExclusionSet :=
  (bs.mapM Interval.ofBounds).map ofIntervals

end ExclusionSet

end ShardKeys
