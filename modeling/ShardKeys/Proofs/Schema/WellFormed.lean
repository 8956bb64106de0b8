import ShardKeys.Error
import ShardKeys.Proofs.Schema.Faultless
import ShardKeys.Proofs.Schema.Layout

/-! # Which tables make up a schema

Tables make up a schema if they are well formed, and otherwise their first fault is told. That the
columns of a key are declared is said of the table and its ancestors here; the search looks at
layouts instead.
-/

namespace ShardKeys

/-- What is asked of the tables of a schema: names that show and that tell them apart, parents that
are there and do not lead round, indexes of different names, foreign keys from columns to as many
columns of a table, and a declaration for each column of a key, unless an ancestor has the column in
its key. -/
structure WellFormed (tables : List Table) : Prop where
  named : ∀ t ∈ tables, ∃ c ∈ t.name.toList, ¬Text.isBlank c
  distinct : (tables.map (·.name)).Nodup
  parents : ∀ t ∈ tables, ∀ name, t.parentName? = some name → ∃ p ∈ tables, p.name = name
  acyclic : ∀ t ∈ tables, ¬Descends (parentIn? tables) t t
  indexes : (tables.flatMap fun t => t.indexes.map (·.name)).Nodup
  references : ∀ t ∈ tables, ∀ f ∈ t.foreignKeys,
    (∃ u ∈ tables, u.name = f.table) ∧ f.columns ≠ [] ∧ f.columns.length = f.references.length
  keys : ∀ t ∈ tables, ∀ c ∈ t.key,
    (∃ column ∈ t.columns, column.name = c) ∨ ∃ a, Descends (parentIn? tables) t a ∧ c ∈ a.key

variable {tables tables' : List Table} {t : Table} {c name : String}

/-! ## Faults and what they rule out -/

theorem isSome_tableNamed?_iff :
    (tableNamed? tables name).isSome ↔ ∃ t ∈ tables, t.name = name := by
  simp [tableNamed?, List.find?_isSome]

theorem Table.isSome_column?_iff :
    (t.column? c).isSome ↔ ∃ column ∈ t.columns, column.name = c := by
  simp [column?, List.find?_isSome]

theorem cycle?_parentIn?_eq_none_iff :
    cycle? (parentIn? tables) tables = none ↔ ∀ t ∈ tables, ¬Descends (parentIn? tables) t t :=
  cycle?_eq_none_iff_acyclic fun _ _ _ hp => mem_of_parentIn? hp

theorem cycleFault?_eq_none_iff :
    cycleFault? tables = none ↔ ∀ t ∈ tables, ¬Descends (parentIn? tables) t t := by
  rw [← cycle?_parentIn?_eq_none_iff, cycleFault?, Option.map_eq_none_iff]

theorem keyFault?_eq_none_iff (hdistinct : (tables.map (·.name)).Nodup)
    (hacyclic : ∀ t ∈ tables, ¬Descends (parentIn? tables) t t) :
    keyFault? tables = none ↔
      ∀ t ∈ tables, ∀ c ∈ t.key,
        (∃ column ∈ t.columns, column.name = c) ∨
          ∃ a, Descends (parentIn? tables) t a ∧ c ∈ a.key := by
  rw [← cycle?_parentIn?_eq_none_iff] at hacyclic
  have horder : ∀ t, t ∈ tablesInOrder tables ↔ t ∈ tables := fun t =>
    (parentsFirst_perm hacyclic (hdistinct.of_map _)).mem_iff
  simp only [← Table.isSome_column?_iff, ← forall_complete_iff hacyclic]
  simp [keyFault?, horder, Layout.undeclared?_eq_none_iff]

/-- Where no table descends from itself, a parent can only be at fault by not being there. -/
theorem parentFaults_eq_none_iff (hdistinct : (tables.map (·.name)).Nodup)
    (hacyclic : ∀ t ∈ tables, ¬Descends (parentIn? tables) t t) :
    (∀ t ∈ tables, t.parentFault? tables = none) ↔
      ∀ t ∈ tables, ∀ name, t.parentName? = some name → ∃ p ∈ tables, p.name = name := by
  simp only [Table.parentFault?_eq_none_iff, isSome_tableNamed?_iff]
  refine forall₂_congr fun t ht => forall₂_congr fun name hname => and_iff_right ?_
  rintro rfl
  have hself : parentIn? tables t = some t := by
    rw [parentIn?, hname]
    exact (tableNamed?_eq_some_iff hdistinct).mpr ⟨ht, rfl⟩
  exact hacyclic t ht (.single hself)

theorem fault?_eq_none_iff : fault? tables = none ↔ WellFormed tables := by
  have hnamed (t : Table) : ¬(Text.trim t.name).isEmpty ↔ ∃ c ∈ t.name.toList, ¬Text.isBlank c := by
    rw [Text.isEmpty_trim_iff]
    push Not
    rfl
  rw [fault?_eq_none_cases, nameFault?_eq_none_iff, cycleFault?_eq_none_iff,
    referenceFault?_eq_none_iff]
  simp only [ForeignKey.fault?_eq_none_iff, isSome_tableNamed?_iff, hnamed]
  constructor
  · rintro ⟨⟨hnames, hdistinct⟩, hparents, hacyclic, ⟨⟨hindexes, -⟩, hreferences⟩, hkeys⟩
    exact
      { named := fun t ht => (hnames t ht).1
        distinct := hdistinct
        parents := (parentFaults_eq_none_iff hdistinct hacyclic).mp hparents
        acyclic := hacyclic
        indexes := hindexes
        references := hreferences
        keys := (keyFault?_eq_none_iff hdistinct hacyclic).mp hkeys }
  · intro h
    refine ⟨⟨?names, h.distinct⟩, ?parents, h.acyclic, ⟨⟨h.indexes, ?indexes⟩, h.references⟩, ?keys⟩
    case names => exact fun t ht => ⟨h.named t ht, List.not_mem_nil⟩
    case parents => exact (parentFaults_eq_none_iff h.distinct h.acyclic).mpr h.parents
    case indexes => exact List.disjoint_nil_left _
    case keys => exact (keyFault?_eq_none_iff h.distinct h.acyclic).mpr h.keys

instance (tables : List Table) : Decidable (WellFormed tables) :=
  decidable_of_iff _ fault?_eq_none_iff

theorem WellFormed.perm (h : WellFormed tables) (hperm : tables'.Perm tables) :
    WellFormed tables' := by
  have hmem (t : Table) : t ∈ tables' ↔ t ∈ tables := hperm.mem_iff
  have hparent := parentIn?_perm hperm h.distinct
  constructor
  case named => simpa [hmem] using h.named
  case distinct => exact (hperm.map _).nodup_iff.mpr h.distinct
  case parents => simpa [hmem] using h.parents
  case acyclic => simpa [hmem, hparent] using h.acyclic
  case indexes => exact (hperm.flatMap_right _).nodup_iff.mpr h.indexes
  case references => simpa [hmem] using h.references
  case keys => simpa [hmem, hparent] using h.keys

/-! ## Making a schema -/

namespace Schema

theorem wellFormed (g : Schema) : WellFormed g.tables :=
  fault?_eq_none_iff.mp g.faultless

theorem ofTables_of_fault {fault : SchemaFault} (h : fault? tables = some fault) :
    ofTables tables = .error fault := by
  unfold ofTables
  split <;> simp_all

theorem ofTables_of_wellFormed (h : WellFormed tables) :
    ∃ g, ofTables tables = .ok g ∧ g.tables = tables ∧ g.sequences = [] := by
  have hfault := fault?_eq_none_iff.mpr h
  unfold ofTables
  split
  · next fault hsome => simp [hfault] at hsome
  · exact ⟨_, rfl, rfl, rfl⟩

/-- Well formed tables make up a schema that holds just them. All others are refused, and what is
told of them is a breach of integrity. -/
theorem ofTables_decides_wellFormed (tables : List Table) :
    ((∃ g, ofTables tables = .ok g) ↔ WellFormed tables) ∧
      (∀ g, ofTables tables = .ok g → g.tables = tables ∧ g.sequences = []) ∧
      ((∃ fault, (ofTables tables).mapError Error.integrity = .error (.integrity fault)) ↔
        ¬WellFormed tables) := by
  by_cases h : WellFormed tables
  · obtain ⟨g, hg, htables, hsequences⟩ := ofTables_of_wellFormed h
    refine ⟨⟨fun _ => h, fun _ => ⟨g, hg⟩⟩, ?_, by simp [hg, h, Except.mapError]⟩
    rintro g' hg'
    obtain rfl := Except.ok.inj (hg.symm.trans hg')
    exact ⟨htables, hsequences⟩
  · obtain ⟨fault, hfault⟩ := Option.ne_none_iff_exists'.mp (fault?_eq_none_iff.not.mpr h)
    simp [ofTables_of_fault hfault, h, Except.mapError]

/-- A table that is interleaved in itself. -/
example : ¬WellFormed [{ name := "Loop", interleave := some { parent := "Loop" } }] := by
  decide +kernel

end Schema

end ShardKeys
