import ShardKeys.Exclusion.Fault
import ShardKeys.Sequence.Basic

/-!
What can be wrong with what is said about sequences.
-/

namespace ShardKeys

/-- Why a name, a declaration, a list of sequences or a sequence in a dialect is refused. -/
inductive ConfigurationFault where
  | excluded (fault : ExclusionFault)
  | blankName
  | blankSchema (written : String)
  | startNotPositive (name : SequenceName) (start : Int64)
  | poolNotPositive (name : SequenceName) (poolSize : Int64)
  | poolTooLarge (name : SequenceName) (poolSize : Int64)
  /-- The pool is larger than the dialect can fetch at once. -/
  | poolBeyondFetch (name : SequenceName) (limit : Nat) (poolSize : UInt32)
  /-- Two sequences share a name and differ otherwise. -/
  | declaredTwice (first second : Sequence)
  deriving DecidableEq

namespace ConfigurationFault

/-- The largest size of a pool. -/
def maxPoolSize : Nat := UInt32.size - 1

def reason : ConfigurationFault → String
  | excluded fault => fault.message
  | blankName => "sequence name must not be empty"
  | blankSchema written => "sequence name '" ++ written ++ "' has an empty schema qualifier"
  | startNotPositive name start =>
      "start counter of sequence '" ++ name.text ++ "' must be positive, got "
        ++ toString start.toInt
  | poolNotPositive name poolSize =>
      "pool size of sequence '" ++ name.text ++ "' must be positive, got "
        ++ toString poolSize.toInt
  | poolTooLarge name poolSize =>
      "pool size of sequence '" ++ name.text ++ "' must not exceed " ++ toString maxPoolSize
        ++ ", got "
        ++ toString poolSize.toInt
  | poolBeyondFetch name limit poolSize =>
      "pool size of sequence '" ++ name.text ++ "' must not exceed " ++ toString limit
        ++ " for PostgreSQL, got " ++ toString poolSize.toNat
  | declaredTwice first second =>
      "sequence '" ++ second.name.text ++ "' is declared twice with different settings: "
        ++ first.text
        ++ " and " ++ second.text

end ConfigurationFault

end ShardKeys
