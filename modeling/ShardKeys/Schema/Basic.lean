import ShardKeys.Schema.Fault
import ShardKeys.Sequence.Fault

/-!
Schemas: tables without a fault, and the sequences behind their keys. The tables keep the order in
which they were declared, and no two sequences share a name.
-/

namespace ShardKeys

structure Schema where
  tables : List Table
  faultless : fault? tables = none
  sequences : List Sequence := []
  distinct : (sequences.map (·.name)).Nodup := by exact .nil
  deriving DecidableEq

namespace Schema

def ofTables (tables : List Table) : Except SchemaFault Schema :=
  match h : fault? tables with
  | some fault => .error fault
  | none => .ok { tables, faultless := h }

/-- Adds a sequence, unless it is there already. -/
def declare (g : Schema) (s : Sequence) : Except ConfigurationFault Schema :=
  match h : g.sequences.find? (·.name = s.name) with
  | some other => if other = s then .ok g else .error (.declaredTwice other s)
  | none =>
      .ok { g with
        sequences := g.sequences ++ [s]
        distinct := by
          have hnew : s.name ∉ g.sequences.map (·.name) := by
            simpa using List.find?_eq_none.mp h
          rw [List.map_append, List.nodup_append]
          refine ⟨g.distinct, by simp, ?_⟩
          intro a ha b hb hab
          simp only [List.map_cons, List.map_nil, List.mem_singleton] at hb
          exact hnew (hb ▸ hab ▸ ha) }

/-- Adds sequences one after the other. -/
def declareAll (g : Schema) (sequences : List Sequence) : Except ConfigurationFault Schema :=
  sequences.foldlM declare g

def table? (g : Schema) (name : String) : Option Table :=
  tableNamed? g.tables name

/-- The table that a table is interleaved in. -/
def parent? (g : Schema) (t : Table) : Option Table :=
  parentIn? g.tables t

/-- The tables interleaved in a table, in the order of declaration. -/
def children (g : Schema) (t : Table) : List Table :=
  g.tables.filter fun child => g.parent? child = some t

def layout (g : Schema) (t : Table) : Layout :=
  layoutIn g.tables t

/-- The whole key of a table. -/
def key (g : Schema) (t : Table) : List String :=
  (g.layout t).key

/-- All columns of a table, those carried over first. -/
def columns (g : Schema) (t : Table) : List Column :=
  (g.layout t).columns

/-- Tables in the order of declaration, but every parent before its children. -/
def tablesInOrder (g : Schema) : List Table :=
  ShardKeys.tablesInOrder g.tables

end Schema

end ShardKeys
