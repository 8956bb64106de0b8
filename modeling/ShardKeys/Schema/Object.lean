import ShardKeys.Schema.Basic

/-!
The objects of a schema and the order in which they come into being: sequences, tables, indexes,
foreign keys. Tables keep the order that puts parents first, and the reverse of the whole order is
safe for dropping.
-/

namespace ShardKeys

/-- An object that a database can hold. -/
inductive SchemaObject where
  | sequence (sequence : Sequence)
  | table (table : Table)
  | index (table : Table) (index : Index)
  | foreignKey (table : Table) (foreignKey : ForeignKey)
  deriving DecidableEq

namespace SchemaObject

/-- The object's own name, without a schema. -/
def name : SchemaObject → String
  | sequence s => s.name.name
  | table t => t.name
  | index _ i => i.name
  | foreignKey _ f => f.name

/-- The table that the object is or belongs to. -/
def table? : SchemaObject → Option Table
  | sequence _ => none
  | table t => some t
  | index t _ => some t
  | foreignKey t _ => some t

end SchemaObject

/-- The indexes of a table, as objects. -/
def Table.indexObjects (t : Table) : List SchemaObject :=
  t.indexes.map (.index t)

/-- The foreign keys of a table, as objects. -/
def Table.foreignKeyObjects (t : Table) : List SchemaObject :=
  t.foreignKeys.map (.foreignKey t)

namespace Schema

/-- Every object, each behind those it depends on. -/
def creationOrder (g : Schema) : List SchemaObject :=
  g.sequences.map .sequence ++ g.tablesInOrder.map .table
    ++ g.tablesInOrder.flatMap Table.indexObjects
    ++ g.tablesInOrder.flatMap Table.foreignKeyObjects

/-- Every object, each before those it depends on. -/
def removalOrder (g : Schema) : List SchemaObject :=
  g.creationOrder.reverse

end Schema

end ShardKeys
