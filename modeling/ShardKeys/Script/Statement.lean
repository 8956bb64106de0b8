import ShardKeys.Script.Plan
import ShardKeys.Dialect.Quoting

/-!
Statements in the words of a dialect. Every change is one statement.
-/

namespace ShardKeys

namespace Dialect

def columnDefinition (d : Dialect) (c : Column) : String :=
  d.quote c.name ++ " " ++ c.type ++ if c.nullable then "" else " not null"

def primaryKeyClause (d : Dialect) (key : List String) : String :=
  "PRIMARY KEY (" ++ d.quoteAll "," key ++ ")"

def interleaveClause (d : Dialect) (i : Interleave) : String :=
  "INTERLEAVE IN PARENT " ++ d.quote i.parent ++ if i.cascade then " ON DELETE CASCADE" else ""

/-- The head of a table, its columns and its key, and the parent's clause behind a separator. -/
def createTable (d : Dialect) (g : Schema) (t : Table) : String :=
  let head := "create table " ++ d.quote t.name ++ " ("
  let columns := ",".intercalate ((g.columns t).map d.columnDefinition)
  let key := d.primaryKeyClause (g.key t)
  let clause (sep : String) := (t.interleave.map fun i => sep ++ d.interleaveClause i).getD ""
  match d.surface with
  | .googleSql => head ++ columns ++ ") " ++ key ++ clause ", "
  | .postgreSql => head ++ columns ++ "," ++ key ++ ")" ++ clause " "

/-- The span of all excluded counters is skipped as a whole. The start is said unless it is 1. -/
def createSequence (d : Dialect) (s : Sequence) : String :=
  let head := "create sequence " ++ d.quoteName s.name
  let start := toString s.start.toNat
  let skip := s.excluded.hull?.map fun b => (toString b.lower.toNat, toString b.upper.toNat)
  match d.surface with
  | .googleSql =>
      let kind := ["sequence_kind=\"bit_reversed_positive\""]
      let start := if s.start = 1 then [] else ["start_with_counter=" ++ start]
      let skip := skip.toList.map fun (lower, upper) =>
        "skip_range_min=" ++ lower ++ ", skip_range_max=" ++ upper
      head ++ " options(" ++ ", ".intercalate (kind ++ start ++ skip) ++ ")"
  | .postgreSql =>
      let skip := (skip.map fun (lower, upper) => " skip range " ++ lower ++ " " ++ upper).getD ""
      let start := if s.start = 1 then "" else " start counter with " ++ start
      head ++ " bit_reversed_positive" ++ skip ++ start

def createIndex (d : Dialect) (t : Table) (i : Index) : String :=
  "create " ++ (if i.unique then "unique " else "") ++ "index " ++ d.quote i.name ++ " on "
    ++ d.quote t.name ++ " (" ++ d.quoteAll ", " i.columns ++ ")"

def addForeignKey (d : Dialect) (t : Table) (f : ForeignKey) : Except UnsupportedOperation String :=
  (d.requireForeignKeys f.name).map fun _ =>
    "alter table " ++ d.quote t.name ++ " add constraint " ++ d.quote f.name ++ " foreign key ("
      ++ d.quoteAll ", " f.columns ++ ") references " ++ d.quote f.table ++ " ("
      ++ d.quoteAll ", " f.references ++ ")"

def createStatement (d : Dialect) (g : Schema) : SchemaObject → Except UnsupportedOperation String
  | .sequence s => .ok (d.createSequence s)
  | .table t => .ok (d.createTable g t)
  | .index t i => .ok (d.createIndex t i)
  | .foreignKey t f => d.addForeignKey t f

def addColumnStatement (d : Dialect) (t : Table) (c : Column) : String :=
  "alter table " ++ d.quote t.name ++ " ADD COLUMN " ++ d.columnDefinition c

def dropStatement (d : Dialect) : SchemaObject → String
  | .sequence s => "drop sequence " ++ d.quoteName s.name
  | .table t => "drop table " ++ d.quote t.name
  | .index _ i => "drop index " ++ d.quote i.name
  | .foreignKey t f => "alter table " ++ d.quote t.name ++ " drop constraint " ++ d.quote f.name

/-- The statement for a change. -/
def statement (d : Dialect) (g : Schema) : Change → Except UnsupportedOperation String
  | .create o => d.createStatement g o
  | .addColumn t c => .ok (d.addColumnStatement t c)
  | .drop o => .ok (d.dropStatement o)

/-- The statements for a plan; one that the dialect cannot express spoils the whole. -/
def statements (d : Dialect) (g : Schema) (plan : List Change) :
    Except UnsupportedOperation (List String) :=
  plan.mapM (d.statement g)

end Dialect

end ShardKeys
