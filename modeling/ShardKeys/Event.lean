import ShardKeys.Script.Mode
import ShardKeys.Pool.Source
import ShardKeys.Sequence.Basic

/-!
Events worth a line in a log, in the order in which they happen.
-/

namespace ShardKeys

inductive Event where
  /-- A block was taken in: `available` counters wait, `discarded` ones were of no use. -/
  | refilled (sequence : SequenceName) (least : Counter) (available discarded : Nat)
  | refillFailed (sequence : SequenceName) (fault : FetchFault)
  | poolOpened (sequence : Sequence)
  /-- A key was declared in another order than the one that puts the parent's key first. -/
  | keyReordered (table parent : String)
  | scriptGenerated (mode : ScriptMode) (statements : Nat)
  | scriptFramed (mode : ScriptMode) (statements batches : Nat)
  deriving DecidableEq

namespace Event

inductive Level where
  | debug
  | info
  | warn
  deriving DecidableEq, Repr

def level : Event → Level
  | refilled .. | poolOpened .. | scriptFramed .. => .debug
  | scriptGenerated .. => .info
  | refillFailed .. | keyReordered .. => .warn

def message : Event → String
  | refilled .. => "refilled sequence pool"
  | refillFailed .. => "sequence refill failed"
  | poolOpened .. => "creating sequence pool"
  | keyReordered .. => "key columns reordered so the parent's key comes first"
  | scriptGenerated .. => "generated DDL script"
  | scriptFramed .. => "framed DDL script"

/-- The word for a kind of script in a log line. -/
def modeWord : ScriptMode → String
  | .create => "Create"
  | .drop => "Drop"
  | .update => "Update"

/-- The particulars of an event, by name. -/
def fields : Event → List (String × String)
  | refilled sequence least available discarded =>
      [("sequence", sequence.text), ("resume_at", toString least.toNat),
        ("available", toString available), ("discarded", toString discarded)]
  | refillFailed sequence fault => [("sequence", sequence.text), ("error", fault.message)]
  | poolOpened sequence => [("descriptor", sequence.text)]
  | keyReordered table parent => [("table", table), ("parent", parent)]
  | scriptGenerated mode statements =>
      [("mode", modeWord mode), ("statements", toString statements)]
  | scriptFramed mode statements batches =>
      [("mode", modeWord mode), ("statements", toString statements), ("batches", toString batches)]

end Event

end ShardKeys
