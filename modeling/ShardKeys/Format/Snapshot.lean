import ShardKeys.Format.Live
import ShardKeys.Format.Sequences
import ShardKeys.Format.Tables

/-!
Snapshots: all that a script is made from. A snapshot is a closed record, so that a misspelt section
is not taken for a missing one.
-/

namespace ShardKeys

structure Snapshot where
  tables : List Table := []
  sequences : List Declaration := []
  /-- What the database holds, if that is said. -/
  existing : Option LiveSchema := none
  /-- Statements to run after a change of the schema. -/
  after : List String := []
  deriving DecidableEq, Inhabited

namespace Snapshot

open Json

def ofJson? (v : Value) : Option Snapshot := do
  let r ← Record.ofValue? ["tables", "sequences", "existing", "afterBatch"] true v
  return {
    tables := ← r.withDefault "tables" []
    sequences := ← r.withDefault "sequences" []
    existing := ← r.withDefault "existing" none
    after := ← r.withDefault "afterBatch" [] }

/-- Reads a snapshot from its text. -/
def parse? (s : String) : Option Snapshot :=
  (Json.parse s).bind ofJson?

end Snapshot

end ShardKeys
