import ShardKeys.Exclusion.Printer
import ShardKeys.Sequence.Name

/-!
Sequences: everything that identifies one backing sequence and the way it is drawn from. A sequence
starts at a positive counter below half of the counter space and is drawn in blocks of positive
size.
-/

namespace ShardKeys

structure Sequence where
  name : SequenceName
  /-- The first counter of a sequence that was never used. -/
  start : Counter
  /-- How many counters one round trip fetches. -/
  poolSize : UInt32
  excluded : ExclusionSet
  start_pos : 0 < start.toNat
  start_lt : start.toNat < 0x8000000000000000
  poolSize_pos : 0 < poolSize.toNat
  deriving DecidableEq

def Sequence.text (s : Sequence) : String :=
  s.name.text ++ " (start " ++ toString s.start.toNat ++ ", pool " ++ toString s.poolSize.toNat
    ++ ")"
    ++ if s.excluded.isEmpty then "" else " excluding " ++ s.excluded.text

end ShardKeys
