import ShardKeys.Event
import ShardKeys.Schema.Basic

/-!
What the reading of a schema leaves in the log.
-/

namespace ShardKeys.Schema

/-- Remarks on a table: its key was declared in another order than it has. -/
def noticesOf (g : Schema) (t : Table) : List Event :=
  match g.parent? t with
  | none => []
  | some parent => if t.reorders (g.key parent) then [.keyReordered t.name parent.name] else []

def notices (g : Schema) : List Event :=
  g.tablesInOrder.flatMap g.noticesOf

end ShardKeys.Schema
