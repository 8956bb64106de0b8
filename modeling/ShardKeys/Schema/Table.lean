/-!
Tables as declared: columns, the table's own part of its key, indexes, foreign keys, and the parent
in which the rows are interleaved.
-/

namespace ShardKeys

structure Column where
  name : String
  /-- The type as the dialect spells it. -/
  type : String
  nullable : Bool := true
  deriving DecidableEq, Repr, Inhabited

structure Index where
  name : String
  columns : List String
  unique : Bool := false
  deriving DecidableEq, Repr, Inhabited

/-- A constraint from columns to as many columns of another table. -/
structure ForeignKey where
  name : String
  columns : List String
  table : String
  references : List String
  deriving DecidableEq, Repr, Inhabited

/-- Rows are stored with those of a parent table. -/
structure Interleave where
  parent : String
  /-- Deleting a row of the parent deletes the rows below it. -/
  cascade : Bool := false
  deriving DecidableEq, Repr, Inhabited

structure Table where
  name : String
  columns : List Column := []
  /-- The table's own part of its key. -/
  key : List String := []
  interleave : Option Interleave := none
  indexes : List Index := []
  foreignKeys : List ForeignKey := []
  deriving DecidableEq, Repr, Inhabited

namespace Table

/-- The name of the table that the rows are interleaved in. -/
def parentName? (t : Table) : Option String :=
  t.interleave.map (·.parent)

/-- The first declared column of a name. -/
def column? (t : Table) (name : String) : Option Column :=
  t.columns.find? (·.name = name)

end Table

/-- The table of a name. -/
def tableNamed? (tables : List Table) (name : String) : Option Table :=
  tables.find? (·.name = name)

/-- The table that a table is interleaved in. -/
def parentIn? (tables : List Table) (t : Table) : Option Table :=
  t.parentName?.bind (tableNamed? tables)

end ShardKeys
