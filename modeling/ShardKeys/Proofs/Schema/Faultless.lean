import Mathlib.Data.List.Nodup
import ShardKeys.Proofs.Schema.Ascent
import ShardKeys.Schema.Basic

/-! # What a schema without a fault guarantees

Table names tell the tables apart, no way up closes a cycle, and every name that a table refers to
is the name of a table.
-/

namespace ShardKeys

/-! ## Faults, one kind at a time -/

theorem nameFault?_eq_none_iff {seen : List String} {tables : List Table} :
    nameFault? seen tables = none ↔
      (∀ t ∈ tables, ¬(Text.trim t.name).isEmpty ∧ t.name ∉ seen) ∧
        (tables.map (·.name)).Nodup := by
  induction tables generalizing seen with
  | nil => simp [nameFault?]
  | cons t rest ih =>
      rw [nameFault?]
      split
      · simp_all
      · split
        · simp_all
        · rw [ih]
          simp only [List.forall_mem_cons, List.map_cons, List.nodup_cons, List.mem_append,
            List.mem_singleton, List.mem_map]
          grind

theorem Table.parentFault?_eq_none_iff {tables : List Table} {t : Table} :
    t.parentFault? tables = none ↔
      ∀ name, t.parentName? = some name → name ≠ t.name ∧ (tableNamed? tables name).isSome := by
  unfold parentFault?
  cases t.parentName? with
  | none => simp
  | some parent =>
      by_cases hself : parent = t.name
      · simp [hself]
      · cases h : tableNamed? tables parent <;> simp [hself, h]

theorem ForeignKey.fault?_eq_none_iff {tables : List Table} {table : String} {f : ForeignKey} :
    f.fault? tables table = none ↔
      (tableNamed? tables f.table).isSome ∧ f.columns ≠ [] ∧
        f.columns.length = f.references.length := by
  unfold fault?
  cases h : tableNamed? tables f.table with
  | none => simp
  | some u => simp

theorem indexFault?_eq_none_iff {table : String} {seen : List String} {indexes : List Index} :
    indexFault? table seen indexes = none ↔
      (indexes.map (·.name)).Nodup ∧ seen.Disjoint (indexes.map (·.name)) := by
  induction indexes generalizing seen with
  | nil => simp [indexFault?]
  | cons i rest ih =>
      rw [indexFault?]
      split
      · next hseen => simp [hseen]
      · next hseen =>
          rw [ih]
          simp only [List.map_cons, List.nodup_cons, List.disjoint_cons_right,
            List.disjoint_append_left, List.singleton_disjoint]
          tauto

/-- No index has the name of one before it, and every foreign key is sound. -/
theorem referenceFault?_eq_none_iff {all rest : List Table} {seen : List String} :
    referenceFault? all seen rest = none ↔
      ((rest.flatMap fun t => t.indexes.map (·.name)).Nodup ∧
          seen.Disjoint (rest.flatMap fun t => t.indexes.map (·.name))) ∧
        ∀ t ∈ rest, ∀ f ∈ t.foreignKeys, f.fault? all t.name = none := by
  induction rest generalizing seen with
  | nil => simp [referenceFault?]
  | cons t rest ih =>
      simp only [referenceFault?, Option.or_eq_none_iff, indexFault?_eq_none_iff, ih,
        List.findSome?_eq_none_iff, List.flatMap_cons, List.nodup_append',
        List.disjoint_append_left, List.disjoint_append_right, List.forall_mem_cons]
      tauto

theorem fault?_eq_none_cases {tables : List Table} :
    fault? tables = none ↔
      nameFault? [] tables = none ∧ (∀ t ∈ tables, t.parentFault? tables = none) ∧
        cycleFault? tables = none ∧ referenceFault? tables [] tables = none ∧
          keyFault? tables = none := by
  simp [fault?]

/-! ## Tables of different names -/

theorem tableNamed?_eq_some_iff {tables : List Table} {name : String} {t : Table}
    (hnames : (tables.map (·.name)).Nodup) :
    tableNamed? tables name = some t ↔ t ∈ tables ∧ t.name = name := by
  constructor
  · intro h
    exact ⟨List.mem_of_find?_eq_some h, by simpa using List.find?_some h⟩
  · rintro ⟨ht, rfl⟩
    cases h : tableNamed? tables t.name with
    | none => simpa using List.find?_eq_none.mp h t ht
    | some u =>
        have hname : u.name = t.name := by simpa using List.find?_some h
        rw [List.inj_on_of_nodup_map hnames (List.mem_of_find?_eq_some h) ht hname]

theorem tableNamed?_perm {tables tables' : List Table} (hperm : tables'.Perm tables)
    (hnames : (tables.map (·.name)).Nodup) : tableNamed? tables' = tableNamed? tables := by
  have hnames' : (tables'.map (·.name)).Nodup := (hperm.map _).nodup_iff.mpr hnames
  funext name
  ext t
  rw [tableNamed?_eq_some_iff hnames', tableNamed?_eq_some_iff hnames, hperm.mem_iff]

theorem parentIn?_perm {tables tables' : List Table} (hperm : tables'.Perm tables)
    (hnames : (tables.map (·.name)).Nodup) : parentIn? tables' = parentIn? tables := by
  funext t
  rw [parentIn?, parentIn?, tableNamed?_perm hperm hnames]

namespace Schema

variable (g : Schema) {t : Table} {name : String}

/-! ## Tables and their names -/

theorem faultless_cases :
    nameFault? [] g.tables = none ∧ (∀ t ∈ g.tables, t.parentFault? g.tables = none) ∧
      cycleFault? g.tables = none ∧ referenceFault? g.tables [] g.tables = none ∧
        keyFault? g.tables = none :=
  fault?_eq_none_cases.mp g.faultless

theorem names_nodup : (g.tables.map (·.name)).Nodup :=
  (nameFault?_eq_none_iff.mp g.faultless_cases.1).2

theorem tables_nodup : g.tables.Nodup :=
  g.names_nodup.of_map _

variable {g}

theorem table?_eq_some_iff : g.table? name = some t ↔ t ∈ g.tables ∧ t.name = name :=
  tableNamed?_eq_some_iff g.names_nodup

theorem table?_of_mem (ht : t ∈ g.tables) : g.table? t.name = some t :=
  table?_eq_some_iff.mpr ⟨ht, rfl⟩

/-! ## What a table refers to -/

theorem exists_parent (ht : t ∈ g.tables) (h : t.parentName? = some name) :
    ∃ p, g.table? name = some p ∧ parentIn? g.tables t = some p := by
  have hparent := Table.parentFault?_eq_none_iff.mp (g.faultless_cases.2.1 t ht) name h
  obtain ⟨p, hp⟩ := Option.isSome_iff_exists.mp hparent.2
  refine ⟨p, hp, ?_⟩
  rw [parentIn?, h]
  exact hp

theorem exists_referenced (ht : t ∈ g.tables) {f : ForeignKey} (hf : f ∈ t.foreignKeys) :
    ∃ u, g.table? f.table = some u := by
  have hsound := (referenceFault?_eq_none_iff.mp g.faultless_cases.2.2.2.1).2 t ht f hf
  exact Option.isSome_iff_exists.mp (ForeignKey.fault?_eq_none_iff.mp hsound).1

variable (g)

theorem acyclic : cycle? (parentIn? g.tables) g.tables = none := by
  simpa [cycleFault?] using g.faultless_cases.2.2.1

/-- Without a fault, no cycle stops the search for an order. -/
theorem tablesInOrder?_eq : tablesInOrder? g.tables = .ok g.tablesInOrder := by
  rw [tablesInOrder?, parentsFirst?_eq g.acyclic]
  rfl

/-- Two tables that are interleaved in each other come into no order. -/
example : tablesInOrder? [{ name := "Orders", interleave := some { parent := "Lines" } },
    { name := "Lines", interleave := some { parent := "Orders" } }] =
      .error (.cycle ["Orders", "Lines"]) := by
  decide +kernel

end Schema

end ShardKeys
