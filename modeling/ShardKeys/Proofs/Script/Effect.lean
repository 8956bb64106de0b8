import ShardKeys.Proofs.Schema.Growth
import ShardKeys.Proofs.Schema.Inheritance
import ShardKeys.Proofs.Schema.Order
import ShardKeys.Script.Plan

/-! # What changes do to a database

A change needs the tables that its object depends on. It adds to what exists: an object by its name,
a table with its columns and its whole key.
-/

namespace ShardKeys

namespace Schema

variable (g : Schema)

/-- What is known of a table of the schema once it is created. -/
def liveTable (t : Table) : LiveTable where
  columns := .ofList ((g.columns t).map (·.name))
  key := some (g.key t)

/-- What exists once an object is created. -/
def record (e : LiveSchema) : SchemaObject → LiveSchema
  | .sequence s => e.withSequence s.name.text
  | .table t => e.withTable t.name (g.liveTable t)
  | .index t i => e.alterTable t.name (·.withIndex i.name)
  | .foreignKey t f => e.alterTable t.name (·.withForeignKey f.name)

/-- What exists after a change, if the tables that it needs are there. Drops are not carried out. -/
def carryOut? (e : LiveSchema) : Change → Option LiveSchema
  | .create o => if o.requires.all e.hasTable then some (g.record e o) else none
  | .addColumn t c =>
      if e.hasTable t.name then some (e.alterTable t.name (·.withColumn c.name)) else none
  | .drop _ => none

/-- What exists after changes that are carried out one after the other. -/
def carryOutAll? (e : LiveSchema) (plan : List Change) : Option LiveSchema :=
  plan.foldlM g.carryOut? e

variable {g} {e : LiveSchema} {o : SchemaObject} {t : Table}

theorem carryOutAll?_append {plan more : List Change} :
    g.carryOutAll? e (plan ++ more) = (g.carryOutAll? e plan).bind (g.carryOutAll? · more) :=
  List.foldlM_append

/-! ## Creating an object -/

theorem declared_subset_columns (ht : t ∈ g.tables) : t.columns ⊆ g.columns t := by
  cases hp : g.parent? t with
  | none => exact columns_of_root ht hp ▸ List.Subset.refl _
  | some p => exact columns_of_parent ht hp ▸ List.subset_append_right _ _

theorem within_record (h : ∀ t, o = .table t → ¬e.hasTable t.name) : e.Within (g.record e o) := by
  cases o with
  | sequence s => exact LiveSchema.within_withSequence e s.name.text
  | table t => exact LiveSchema.within_withTable (by simpa [LiveSchema.hasTable] using h t rfl)
  | index t i => exact LiveSchema.within_alterTable fun live => live.within_withIndex i.name
  | foreignKey t f =>
      exact LiveSchema.within_alterTable fun live => live.within_withForeignKey f.name

theorem holds_record (h : ∀ name ∈ o.requires, e.hasTable name) : (g.record e o).holds o := by
  cases o with
  | sequence s => simp [record, LiveSchema.holds]
  | table t => simp [record, LiveSchema.holds, LiveSchema.hasTable]
  | index t i =>
      obtain ⟨live, hlive⟩ :=
        LiveSchema.hasTable_eq_true_iff.mp (h t.name (by simp [SchemaObject.requires]))
      simp [record, LiveSchema.holds, LiveSchema.hasIndex, LiveTable.withIndex, hlive]
  | foreignKey t f =>
      obtain ⟨live, hlive⟩ :=
        LiveSchema.hasTable_eq_true_iff.mp (h t.name (by simp [SchemaObject.requires]))
      simp [record, LiveSchema.holds, LiveSchema.hasForeignKey, LiveTable.withForeignKey, hlive]

/-- The only table that comes into being is the one created. -/
theorem hasTable_record {name : String} (h : (g.record e o).hasTable name) :
    e.hasTable name ∨ ∃ t, o = .table t ∧ t.name = name := by
  cases o with
  | sequence s => exact .inl h
  | table t =>
      by_cases hname : name = t.name
      · exact .inr ⟨t, rfl, hname.symm⟩
      · exact .inl (by simpa [record, LiveSchema.hasTable, hname] using h)
  | index t i => exact .inl (by simpa only [record, LiveSchema.hasTable_alterTable] using h)
  | foreignKey t f => exact .inl (by simpa only [record, LiveSchema.hasTable_alterTable] using h)

/-! ## Adding columns -/

theorem hasColumn_alterTable {name column : String} (h : e.hasTable name) :
    (e.alterTable name (·.withColumn column)).hasColumn name column := by
  obtain ⟨live, hlive⟩ := LiveSchema.hasTable_eq_true_iff.mp h
  simp [LiveSchema.hasColumn, LiveTable.withColumn, hlive]

/-- Columns are added to a table that exists, and nothing else changes. -/
theorem carryOutAll?_addColumn (columns : List Column) (h : e.hasTable t.name) :
    ∃ f, g.carryOutAll? e (columns.map (.addColumn t)) = some f ∧ e.Within f ∧
      (∀ c ∈ columns, f.hasColumn t.name c.name) ∧ ∀ name, f.hasTable name = e.hasTable name := by
  induction columns generalizing e with
  | nil => exact ⟨e, rfl, .refl e, by simp, fun _ => rfl⟩
  | cons c rest ih =>
      have hfirst : e.Within (e.alterTable t.name (·.withColumn c.name)) :=
        LiveSchema.within_alterTable fun live => live.within_withColumn c.name
      obtain ⟨f, hrun, hgrown, hcolumns, htables⟩ := ih (hfirst.hasTable h)
      refine ⟨f, ?_, hfirst.trans hgrown, ?_, fun name => ?_⟩
      · simpa [carryOutAll?, carryOut?, h] using hrun
      · exact List.forall_mem_cons.mpr ⟨hgrown.hasColumn (hasColumn_alterTable h), hcolumns⟩
      · rw [htables, LiveSchema.hasTable_alterTable]

end Schema

end ShardKeys
