import ShardKeys.Dialect.Support
import ShardKeys.Pool.Generator
import ShardKeys.Schema.Fault

/-!
Errors of the library and their wording.
-/

namespace ShardKeys

inductive Error where
  | configuration (fault : ConfigurationFault)
  | integrity (fault : SchemaFault)
  | refill (sequence : SequenceName) (fault : FetchFault)
  | unsupported (operation : UnsupportedOperation)
  | poisoned
  deriving DecidableEq

namespace Error

def message : Error → String
  | configuration fault => "invalid configuration: " ++ fault.reason
  | integrity fault =>
      "schema integrity violated for [" ++ ", ".intercalate fault.tables ++ "]: " ++ fault.reason
  | refill sequence fault =>
      "refill of sequence `" ++ sequence.text ++ "` failed: " ++ fault.message
  | unsupported operation =>
      "unsupported DDL operation `" ++ operation.operation ++ "`: " ++ operation.reason
  | poisoned => "lock poisoned"

end Error

/-- The error that a fault of a pool means to its callers; a crash is none, and neither is a search
without end. -/
def PoolFault.error? (name : SequenceName) : PoolFault → Option Error
  | .refill fault => some (.refill name fault)
  | .poisoned => some .poisoned
  | .crashed | .fruitless => none

/-- The error that a missing key means. -/
def KeyFault.error? : KeyFault → Option Error
  | .refused fault => some (.configuration fault)
  | .pool s fault => fault.error? s.name

end ShardKeys
