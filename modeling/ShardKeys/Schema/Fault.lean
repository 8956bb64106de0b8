import ShardKeys.Schema.Layout
import ShardKeys.Text.Blank

/-!
What can be wrong with a list of tables, and the search for the first fault. Names are looked at
first, then parents, cycles, indexes and foreign keys, and at last the keys.
-/

namespace ShardKeys

inductive SchemaFault where
  | blankName (position : Nat)
  | duplicateTable (table : String)
  | interleavedInItself (table : String)
  | missingParent (table parent : String)
  | cycle (tables : List String)
  | duplicateIndex (table index : String)
  | missingReference (table foreignKey referenced : String)
  | unevenForeignKey (table foreignKey : String)
  | undeclaredKey (table column : String)
  deriving DecidableEq, Repr

namespace SchemaFault

/-- The tables at fault; one without a name stands by its position. -/
def tables : SchemaFault → List String
  | blankName position => [toString position]
  | duplicateTable table => [table]
  | interleavedInItself table => [table]
  | missingParent table parent => [table, parent]
  | cycle tables => tables
  | duplicateIndex table _ => [table]
  | missingReference table _ referenced => [table, referenced]
  | unevenForeignKey table _ => [table]
  | undeclaredKey table _ => [table]

def reason : SchemaFault → String
  | blankName _ => "table name is empty"
  | duplicateTable _ => "table is declared more than once"
  | interleavedInItself _ => "table is interleaved in itself"
  | missingParent _ _ => "interleaved parent is not part of the schema"
  | cycle _ => "interleaving contains a cycle"
  | duplicateIndex _ index => "index `" ++ index ++ "` is declared more than once"
  | missingReference _ foreignKey _ =>
      "foreign key `" ++ foreignKey ++ "` references a table that is not part of the schema"
  | unevenForeignKey _ foreignKey =>
      "foreign key `" ++ foreignKey ++ "` must map the same non-zero number of columns"
  | undeclaredKey _ column => "key column `" ++ column ++ "` is not declared"

end SchemaFault

/-- The first table with a blank name, or with the name of one before it. -/
def nameFault? (seen : List String) : List Table → Option SchemaFault
  | [] => none
  | t :: rest =>
      if (Text.trim t.name).isEmpty then some (.blankName seen.length)
      else if t.name ∈ seen then some (.duplicateTable t.name)
      else nameFault? (seen ++ [t.name]) rest

/-- A parent that is the table itself or no table at all. -/
def Table.parentFault? (tables : List Table) (t : Table) : Option SchemaFault :=
  match t.parentName? with
  | none => none
  | some parent =>
      if parent = t.name then some (.interleavedInItself t.name)
      else if (tableNamed? tables parent).isNone then some (.missingParent t.name parent)
      else none

def cycleFault? (tables : List Table) : Option SchemaFault :=
  (cycle? (parentIn? tables) tables).map fun members => .cycle (members.map (·.name))

/-- The first index of a table with the name of an index before it. -/
def indexFault? (table : String) (seen : List String) : List Index → Option SchemaFault
  | [] => none
  | i :: rest =>
      if i.name ∈ seen then some (.duplicateIndex table i.name)
      else indexFault? table (seen ++ [i.name]) rest

/-- A reference to no table, or one that does not map column to column. -/
def ForeignKey.fault? (tables : List Table) (table : String) (f : ForeignKey) :
    Option SchemaFault :=
  if (tableNamed? tables f.table).isNone then some (.missingReference table f.name f.table)
  else if f.columns.isEmpty || f.columns.length != f.references.length then
    some (.unevenForeignKey table f.name)
  else none

/-- The first fault of an index or a foreign key; `seen` names the indexes of the tables before. -/
def referenceFault? (tables : List Table) (seen : List String) : List Table → Option SchemaFault
  | [] => none
  | t :: rest =>
      (indexFault? t.name seen t.indexes).or <|
        (t.foreignKeys.findSome? (·.fault? tables t.name)).or <|
          referenceFault? tables (seen ++ t.indexes.map (·.name)) rest

/-- Tables in the order of the list, but every parent before its children. -/
def tablesInOrder (tables : List Table) : List Table :=
  parentsFirst (parentIn? tables) tables

/-- The order of tables that may not be sound; a cycle is found on the way. -/
def tablesInOrder? (tables : List Table) : Except SchemaFault (List Table) :=
  (parentsFirst? (parentIn? tables) tables).mapError fun met => .cycle (met.map (·.name))

/-- The first key column without a definition, by tables in their order. -/
def keyFault? (tables : List Table) : Option SchemaFault :=
  (tablesInOrder tables).findSome? fun t =>
    (layoutIn tables t).undeclared?.map (.undeclaredKey t.name)

/-- The first fault of a list of tables. -/
def fault? (tables : List Table) : Option SchemaFault :=
  (nameFault? [] tables).or <|
    (tables.findSome? (·.parentFault? tables)).or <|
      (cycleFault? tables).or <|
        (referenceFault? tables [] tables).or <|
          keyFault? tables

end ShardKeys
