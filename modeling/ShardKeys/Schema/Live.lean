import ShardKeys.Schema.Object
import ShardKeys.Text.Names

/-!
Live schemas: what a database holds already, as far as it is known. Objects are known by name; a
sequence is known by the text of its name.
-/

namespace ShardKeys

/-- What is known of a table that exists. -/
structure LiveTable where
  columns : NameSet := .empty
  /-- The key, if it is known. -/
  key : Option (List String) := none
  indexes : NameSet := .empty
  foreignKeys : NameSet := .empty
  deriving DecidableEq, Inhabited

structure LiveSchema where
  tables : NameMap LiveTable := .empty
  sequences : NameSet := .empty
  deriving DecidableEq, Inhabited

namespace LiveTable

def withColumn (live : LiveTable) (column : String) : LiveTable :=
  { live with columns := live.columns.insert column }

def withIndex (live : LiveTable) (index : String) : LiveTable :=
  { live with indexes := live.indexes.insert index }

def withForeignKey (live : LiveTable) (foreignKey : String) : LiveTable :=
  { live with foreignKeys := live.foreignKeys.insert foreignKey }

end LiveTable

namespace LiveSchema

def table? (e : LiveSchema) (name : String) : Option LiveTable :=
  e.tables.get? name

def hasTable (e : LiveSchema) (table : String) : Bool :=
  (e.table? table).isSome

def hasColumn (e : LiveSchema) (table column : String) : Bool :=
  (e.table? table).any (·.columns.contains column)

def hasIndex (e : LiveSchema) (table index : String) : Bool :=
  (e.table? table).any (·.indexes.contains index)

def hasForeignKey (e : LiveSchema) (table foreignKey : String) : Bool :=
  (e.table? table).any (·.foreignKeys.contains foreignKey)

def hasSequence (e : LiveSchema) (sequence : String) : Bool :=
  e.sequences.contains sequence

/-- Whether an object exists already. -/
def holds (e : LiveSchema) : SchemaObject → Bool
  | .sequence s => e.hasSequence s.name.text
  | .table t => e.hasTable t.name
  | .index t i => e.hasIndex t.name i.name
  | .foreignKey t f => e.hasForeignKey t.name f.name

/-- Records a table, in the place of one with the same name. -/
def withTable (e : LiveSchema) (name : String) (live : LiveTable) : LiveSchema :=
  { e with tables := e.tables.insert name live }

def withSequence (e : LiveSchema) (sequence : String) : LiveSchema :=
  { e with sequences := e.sequences.insert sequence }

/-- Records something of a table that exists. -/
def alterTable (e : LiveSchema) (name : String) (record : LiveTable → LiveTable) : LiveSchema :=
  match e.table? name with
  | some live => e.withTable name (record live)
  | none => e

section Lookup

variable (e : LiveSchema) (name other : String) (live : LiveTable) (record : LiveTable → LiveTable)

@[simp] theorem table?_withTable :
    (e.withTable name live).table? other = if other = name then some live else e.table? other :=
  NameMap.get?_insert ..

@[simp] theorem table?_withSequence : (e.withSequence name).table? other = e.table? other := rfl

@[simp] theorem table?_alterTable :
    (e.alterTable name record).table? other =
      if other = name then (e.table? name).map record else e.table? other := by
  unfold alterTable
  cases h : e.table? name with
  | none => by_cases hother : other = name <;> simp [hother, h]
  | some live => by_cases hother : other = name <;> simp [hother]

@[simp] theorem hasSequence_withTable :
    (e.withTable name live).hasSequence other = e.hasSequence other := rfl

@[simp] theorem hasSequence_withSequence :
    (e.withSequence name).hasSequence other = (other == name || e.hasSequence other) :=
  NameSet.contains_insert ..

@[simp] theorem hasSequence_alterTable :
    (e.alterTable name record).hasSequence other = e.hasSequence other := by
  unfold alterTable
  split <;> rfl

end Lookup

end LiveSchema

end ShardKeys
