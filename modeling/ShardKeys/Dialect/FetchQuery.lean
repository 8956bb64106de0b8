import ShardKeys.Dialect.Quoting
import ShardKeys.Sequence.Basic

/-!
The statement that fetches a block of counters. It looks like a read but advances the sequence, so
hints ask for a read-write transaction and for no silent replay.
-/

namespace ShardKeys.Dialect

def fetchHints : String :=
  "/* spanner.force_read_write_transaction=true */ /* spanner.ignore_during_internal_retry=true */ "

/-- One item of a select list, which takes one counter. -/
def nextValueItem (name : String) : String :=
  "nextval('" ++ name ++ "') as n"

/-- The statement that fetches a pool's worth of counters. -/
def fetchQuery (d : Dialect) (s : Sequence) : String :=
  let name := d.quoteName s.name
  match d.surface with
  | .googleSql =>
      fetchHints ++ " select get_next_sequence_value(sequence " ++ name
        ++ ") AS n from unnest(generate_array(1, " ++ toString s.poolSize.toNat ++ "))"
  | .postgreSql =>
      fetchHints ++ " select "
        ++ ", ".intercalate (List.replicate s.poolSize.toNat (nextValueItem name))

end ShardKeys.Dialect
