import ShardKeys.Sequence.Name
import ShardKeys.Counter
import ShardKeys.Text.Duration

/-!
Backing sources. A source is asked for a block of counters and answers with a block, with a failure,
or not at all because it crashes. It may change its own state with every answer.
-/

namespace ShardKeys

/-- One round trip to a backing sequence. -/
structure FetchRequest where
  sequence : SequenceName
  /-- Where a sequence that was never used begins. -/
  origin : Counter
  /-- The least counter of use to the pool that asks. -/
  least : Counter
  count : UInt32
  deriving DecidableEq, Repr

/-- Why a round trip brought no counters. -/
inductive FetchFault where
  | roundTrip (message : String)
  | timedOut (nanos : Nat)
  | exhausted
  deriving DecidableEq, Repr

def FetchFault.message : FetchFault → String
  | .roundTrip message => "round trip failed: " ++ message
  | .timedOut nanos => "round trip timed out after " ++ Text.durationText nanos
  | .exhausted => "sequence exhausted"

/-- What comes of a request. -/
inductive Answer where
  | block (counters : List Counter)
  | failed (fault : FetchFault)
  | crashed
  deriving DecidableEq, Repr

/-- A backing source with states in `σ`. -/
structure Source (σ : Type) where
  fetch : σ → FetchRequest → Answer × σ
  /-- The milliseconds that pass before the next answer. -/
  delay : σ → Nat := fun _ => 0

/-- A request and its answer; there is none if the request was given up. -/
structure Exchange where
  request : FetchRequest
  answer : Option Answer
  deriving DecidableEq, Repr

end ShardKeys
