import ShardKeys.Schema.Ascent
import ShardKeys.Schema.Table

/-!
Layouts of tables: the whole key, and all columns. The key of a table is the key of its parent
followed by what the table adds. Columns of the parent's key that a table does not declare are
carried over as the parent has them.
-/

namespace ShardKeys

structure Layout where
  /-- The key, the parts of the ancestors first. -/
  key : List String := []
  /-- The key columns taken over from the parent. -/
  carried : List Column := []
  /-- The columns that the table declares. -/
  own : List Column := []
  deriving DecidableEq, Repr, Inhabited

namespace Layout

def columns (l : Layout) : List Column :=
  l.carried ++ l.own

/-- The definition of a column: the declared one, or else the one carried over. -/
def column? (l : Layout) (name : String) : Option Column :=
  (l.own.find? (·.name = name)).or (l.carried.find? (·.name = name))

/-- A key continued by the columns of a list that it does not hold yet. -/
def extendKey (key columns : List String) : List String :=
  columns.foldl (fun key c => if c ∈ key then key else key ++ [c]) key

/-- The layout of a table that is interleaved in one of layout `above`. -/
def below (above : Layout) (t : Table) : Layout where
  key := extendKey above.key t.key
  carried := (above.key.filter fun c => (t.column? c).isNone).filterMap above.column?
  own := t.columns

/-- The layout of the last table of a lineage. -/
def ofLineage (tables : List Table) : Layout :=
  tables.foldl below {}

/-- The first key column without a definition. -/
def undeclared? (l : Layout) : Option String :=
  l.key.find? fun c => (l.column? c).isNone

end Layout

/-- The layout of a table among others. -/
def layoutIn (tables : List Table) (t : Table) : Layout :=
  .ofLineage (lineage (parentIn? tables) tables t)

/-- Whether a table declares columns of its parent's key, but not first and in order. -/
def Table.reorders (t : Table) (parentKey : List String) : Bool :=
  t.key.any (· ∈ parentKey) && !parentKey.isPrefixOf t.key

end ShardKeys
