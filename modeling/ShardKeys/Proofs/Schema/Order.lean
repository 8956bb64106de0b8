import Mathlib.Data.List.Perm.Basic
import ShardKeys.Proofs.Schema.Faultless
import ShardKeys.Schema.Object

/-! # Creating in order, dropping in reverse

An object depends on tables only: a table on the one it is interleaved in, an index on its table, a
foreign key on its own table and on the one it refers to.
-/

namespace ShardKeys

namespace SchemaObject

/-- The names of the tables that an object depends on. -/
def requires : SchemaObject → List String
  | sequence _ => []
  | table t => t.parentName?.toList
  | index t _ => [t.name]
  | foreignKey t f => [t.name, f.table]

def DependsOn (o other : SchemaObject) : Prop :=
  ∃ t, other = .table t ∧ t.name ∈ o.requires

end SchemaObject

namespace Schema

variable (g : Schema) {t : Table}

/-- All that is declared: the sequences, and the tables with their indexes and foreign keys. -/
def objects : List SchemaObject :=
  g.sequences.map .sequence ++
    g.tables.flatMap fun t => .table t :: (t.indexObjects ++ t.foreignKeyObjects)

/-- An object may follow others if the tables it depends on are among them, and it is not a table
that is there already. -/
structure MayCreate (done : List SchemaObject) (o : SchemaObject) : Prop where
  supplied : ∀ name ∈ o.requires, ∃ t, g.table? name = some t ∧ .table t ∈ done
  fresh : ∀ t, o = .table t → t ∈ g.tables ∧ .table t ∉ done

theorem tablesInOrder_perm : g.tablesInOrder.Perm g.tables :=
  parentsFirst_perm g.acyclic g.tables_nodup

theorem creationOrder_perm : g.creationOrder.Perm g.objects := by
  have hperm := g.tablesInOrder_perm
  have htables : (g.tables.map SchemaObject.table ++ g.tables.flatMap Table.indexObjects ++
      g.tables.flatMap Table.foreignKeyObjects).Perm
      (g.tables.flatMap fun t => .table t :: (t.indexObjects ++ t.foreignKeyObjects)) := by
    rw [List.append_assoc]
    exact ((List.flatMap_append_perm _ _ _).append_left _).trans
      (List.map_append_flatMap_perm _ _ _)
  refine List.Perm.trans ?_ (htables.append_left _)
  rw [creationOrder, List.append_assoc, List.append_assoc]
  refine List.Perm.append_left _ ?_
  rw [List.append_assoc]
  exact (hperm.map _).append ((hperm.flatMap_right _).append (hperm.flatMap_right _))

variable {g}

theorem table_mem_objects (ht : t ∈ g.tables) : .table t ∈ g.objects :=
  List.mem_append_right _ (List.mem_flatMap.mpr ⟨t, ht, List.mem_cons_self⟩)

theorem mayCreate_table {done : List Table} (front : List Sequence) (ht : t ∈ g.tables)
    (h : MayFollow (parentIn? g.tables) done t) :
    g.MayCreate (front.map .sequence ++ done.map .table) (.table t) := by
  constructor
  case supplied =>
    intro name hname
    obtain ⟨p, hp, hparent⟩ := exists_parent ht (Option.mem_toList.mp hname)
    exact ⟨p, hp, List.mem_append_right _ (List.mem_map_of_mem (h.2 p hparent))⟩
  case fresh =>
    rintro u ⟨⟩
    exact ⟨ht, by simpa using h.1⟩

/-- Once all tables are there, what is no table may be created if the tables that it names are
declared. -/
theorem mayCreate_of_tables {done : List SchemaObject} {o : SchemaObject}
    (hdone : ∀ t ∈ g.tables, .table t ∈ done) (ho : ∀ t, o ≠ .table t)
    (hnames : ∀ name ∈ o.requires, ∃ t, g.table? name = some t) : g.MayCreate done o := by
  constructor
  case supplied =>
    intro name hname
    obtain ⟨t, ht⟩ := hnames name hname
    exact ⟨t, ht, hdone t (table?_eq_some_iff.mp ht).1⟩
  case fresh =>
    intro t h
    exact absurd h (ho t)

/-- What may be created does not depend on itself, nor on anything that may be created later. -/
theorem MayCreate.not_dependsOn {done doneLater : List SchemaObject} {o later : SchemaObject}
    (ho : g.MayCreate done o) (hlater : g.MayCreate doneLater later) (hdone : done ⊆ doneLater) :
    ¬o.DependsOn later := by
  rintro ⟨t, rfl, hname⟩
  obtain ⟨ht, hfresh⟩ := hlater.fresh t rfl
  obtain ⟨u, hu, hudone⟩ := ho.supplied t.name hname
  obtain rfl := Option.some.inj ((table?_of_mem ht).symm.trans hu)
  exact hfresh (hdone hudone)

variable (g)

theorem creationOrder_readyOrder : ReadyOrder g.MayCreate [] g.creationOrder := by
  have hmem : ∀ t, t ∈ g.tablesInOrder ↔ t ∈ g.tables := fun t => g.tablesInOrder_perm.mem_iff
  rw [creationOrder, ReadyOrder.append_iff, ReadyOrder.append_iff, ReadyOrder.append_iff]
  refine ⟨⟨⟨?sequences, ?tables⟩, ?indexes⟩, ?foreignKeys⟩
  case sequences =>
    refine ReadyOrder.of_forall fun o ho more => ?_
    obtain ⟨s, -, rfl⟩ := List.mem_map.mp ho
    exact ⟨by simp [SchemaObject.requires], by simp⟩
  case tables =>
    have horder : ReadyOrder (MayFollow (parentIn? g.tables)) [] g.tablesInOrder :=
      parentsFirst_readyOrder g.acyclic
    simpa using horder.map fun done t ht h => mayCreate_table g.sequences ((hmem t).mp ht) h
  case indexes =>
    refine ReadyOrder.of_forall fun o ho more => ?_
    obtain ⟨t, ht, ho⟩ := List.mem_flatMap.mp ho
    obtain ⟨i, -, rfl⟩ := List.mem_map.mp ho
    refine mayCreate_of_tables (fun u hu => by simp [(hmem u).mpr hu]) (by simp) ?_
    intro name hname
    obtain rfl := List.mem_singleton.mp hname
    exact ⟨t, table?_of_mem ((hmem t).mp ht)⟩
  case foreignKeys =>
    refine ReadyOrder.of_forall fun o ho more => ?_
    obtain ⟨t, ht, ho⟩ := List.mem_flatMap.mp ho
    obtain ⟨f, hf, rfl⟩ := List.mem_map.mp ho
    refine mayCreate_of_tables (fun u hu => by simp [(hmem u).mpr hu]) (by simp) ?_
    intro name hname
    rcases List.mem_pair.mp hname with rfl | rfl
    · exact ⟨t, table?_of_mem ((hmem t).mp ht)⟩
    · exact exists_referenced ((hmem t).mp ht) hf

theorem creationOrder_pairwise : g.creationOrder.Pairwise fun o later => ¬o.DependsOn later :=
  g.creationOrder_readyOrder.pairwise fun _ _ _ _ ho hlater =>
    ho.not_dependsOn hlater (List.subset_append_left _ _)

/-- The order of the tables is found. Everything declared is created once, the sequences first and
each object behind the tables it depends on. Dropping goes the other way, so that nothing is dropped
while something depends on it. -/
theorem creationOrder_respects_dependencies :
    tablesInOrder? g.tables = .ok g.tablesInOrder ∧
      g.creationOrder.Perm g.objects ∧
      g.sequences.map .sequence <+: g.creationOrder ∧
      (∀ done o rest, g.creationOrder = done ++ o :: rest →
        ∀ name ∈ o.requires, ∃ t, g.table? name = some t ∧ .table t ∈ done) ∧
      g.removalOrder = g.creationOrder.reverse ∧
      g.removalOrder.Pairwise fun o later => ¬later.DependsOn o := by
  refine ⟨g.tablesInOrder?_eq, g.creationOrder_perm, ?first, ?behind, rfl, ?safe⟩
  case first =>
    simp only [creationOrder, List.append_assoc]
    exact List.prefix_append _ _
  case behind =>
    intro done o rest h
    have hready := ReadyOrder.ready_of_append (h ▸ g.creationOrder_readyOrder)
    exact hready.supplied
  case safe =>
    exact List.pairwise_reverse.mpr g.creationOrder_pairwise

end Schema

end ShardKeys
