import ShardKeys.Dialect.Support
import ShardKeys.Schema.Live

/-!
Changes of a database and plans of changes. A plan says what is done and in which order, before
anything is put into words.
-/

namespace ShardKeys

/-- A single step of a script. -/
inductive Change where
  | create (object : SchemaObject)
  | addColumn (table : Table) (column : Column)
  | drop (object : SchemaObject)
  deriving DecidableEq

namespace Schema

def createPlan (g : Schema) : List Change :=
  g.creationOrder.map .create

def dropPlan (g : Schema) : List Change :=
  g.removalOrder.map .drop

/-- Drops what exists. -/
def dropPlanFor (g : Schema) (e : LiveSchema) : List Change :=
  (g.removalOrder.filter e.holds).map .drop

/-- The columns that a table has and the database lacks. -/
def missingColumns (g : Schema) (e : LiveSchema) (t : Table) : List Column :=
  (g.columns t).filter fun c => !e.hasColumn t.name c.name

/-- What is missing of an object. The key of a table that exists must be the declared one, if it is
known. -/
def updatesOf (g : Schema) (d : Dialect) (e : LiveSchema) (o : SchemaObject) :
    Except UnsupportedOperation (List Change) :=
  match o with
  | .table t =>
      match e.table? t.name with
      | none => .ok [.create o]
      | some live => do
          if live.key.any (· ≠ g.key t) then d.requireKeyChange t.name
          return (g.missingColumns e t).map (.addColumn t)
  | o => .ok (if e.holds o then [] else [.create o])

/-- Everything that is missing, in the order of creation. -/
def updatePlan (g : Schema) (d : Dialect) (e : LiveSchema) :
    Except UnsupportedOperation (List Change) :=
  (g.creationOrder.mapM (g.updatesOf d e)).map List.flatten

end Schema

end ShardKeys
