import ShardKeys.Exclusion.Parser
import ShardKeys.Sequence.Naming

/-!
Declarations of sequences. A declaration is what a user writes about a sequence, in texts and signed
numbers; validation turns it into a sequence or names the first fault.
-/

namespace ShardKeys

/-- A sequence as declared. Only the name has no default. -/
structure Declaration where
  name : String := ""
  /-- The schema of a name without a dot. -/
  schema : String := ""
  start : Int64 := 1
  poolSize : Int64 := 50
  /-- The counters never to issue, as a list of ranges. -/
  excluded : String := ""
  deriving DecidableEq, Repr, Inhabited

namespace Declaration

/-- The sequence that a declaration describes. The name is checked first, then the start, the pool
size and the excluded ranges. -/
def validate (d : Declaration) : Except ConfigurationFault Sequence :=
  match SequenceName.ofText d.name (some d.schema) with
  | .error fault => .error fault
  | .ok name =>
      if hs : d.start.toInt ≤ 0 then .error (.startNotPositive name d.start)
      else if hp : d.poolSize.toInt ≤ 0 then .error (.poolNotPositive name d.poolSize)
      else if hm : ConfigurationFault.maxPoolSize < d.poolSize.toInt then
        .error (.poolTooLarge name d.poolSize)
      else
        match ExclusionSet.parse d.excluded with
        | .error fault => .error (.excluded fault)
        | .ok excluded =>
            .ok {
              name, excluded
              start := UInt64.ofNat d.start.toInt.toNat
              poolSize := UInt32.ofNat d.poolSize.toInt.toNat
              start_pos := by
                have := d.start.toInt_lt
                simp only [UInt64.toNat_ofNat']
                omega
              start_lt := by
                have := d.start.toInt_lt
                simp only [UInt64.toNat_ofNat']
                omega
              poolSize_pos := by
                simp only [ConfigurationFault.maxPoolSize, UInt32.size] at hm
                simp only [UInt32.toNat_ofNat']
                omega }

end Declaration

namespace Sequence

/-- The declaration that describes a sequence part by part. -/
def declaration (s : Sequence) : Declaration where
  name := s.name.name
  schema := s.name.schema.getD ""
  start := Int64.ofInt s.start.toNat
  poolSize := Int64.ofInt s.poolSize.toNat
  excluded := s.excluded.text

/-- The sequence of a name alone, with the default start and pool size and nothing excluded. -/
def ofName (name : String) : Except ConfigurationFault Sequence :=
  Declaration.validate { name }

end Sequence

end ShardKeys
