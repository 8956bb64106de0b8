import ShardKeys.Proofs.Script.Update

/-! # When there is no script

A dialect can put every change into words, but for a foreign key where there are none. An update is
refused before that if the key of a table has changed. Nothing else stands in the way of a script.
-/

namespace ShardKeys

variable {style : ScriptStyle} {d : Dialect} {g : Schema} {e : LiveSchema} {o : SchemaObject}
  {change : Change} {plan : List Change} {fault : UnsupportedOperation}

/-! ## Statements -/

namespace Dialect

theorem statement_eq_error_iff :
    d.statement g change = .error fault ↔
      ∃ t f, change = .create (.foreignKey t f) ∧ ¬d.capabilities.foreignKeys ∧
        fault = .addForeignKey f.name := by
  cases change with
  | create o =>
      cases o with
      | foreignKey t f =>
          cases h : d.capabilities.foreignKeys <;>
            simp [statement, createStatement, addForeignKey, requireForeignKeys, Except.map, h,
              eq_comm]
      | sequence _ | table _ | index _ _ => simp [statement, createStatement]
  | addColumn _ _ | drop _ => simp [statement]

end Dialect

/-! ## Plans -/

namespace Schema

theorem table_mem_objects_iff {t : Table} : .table t ∈ g.objects ↔ t ∈ g.tables := by
  simp [objects, Table.indexObjects, Table.foreignKeyObjects]

theorem foreignKey_mem_objects_iff {t : Table} {f : ForeignKey} :
    .foreignKey t f ∈ g.objects ↔ t ∈ g.tables ∧ f ∈ t.foreignKeys := by
  simp [objects, Table.indexObjects, Table.foreignKeyObjects, and_comm]

/-- The only fault of an object is that another key than its own is known of a table. -/
theorem updatesOf_eq_error_iff :
    g.updatesOf d e o = .error fault ↔
      ∃ t, o = .table t ∧ ¬g.KeyFits e t ∧ fault = .alterPrimaryKey t.name := by
  by_cases ho : ∃ t, o = .table t
  · obtain ⟨t, rfl⟩ := ho
    by_cases ht : e.hasTable t.name
    · rw [updatesOf_table ht]
      by_cases hfits : g.KeyFits e t <;> simp [hfits, eq_comm]
    · have hnone : e.table? t.name = none := by simpa [LiveSchema.hasTable] using ht
      simp [updatesOf, hnone, KeyFits, LiveSchema.key?]
  · have hne : ∀ t, o ≠ .table t := fun t ht => ho ⟨t, ht⟩
    simp [updatesOf_of_ne_table hne, hne]

theorem exists_updatePlan_eq_error_iff :
    (∃ fault, g.updatePlan d e = .error fault) ↔ ∃ t ∈ g.tables, ¬g.KeyFits e t := by
  simp only [updatePlan, map_eq_error_iff, exists_mapM_eq_error_iff, updatesOf_eq_error_iff,
    g.creationOrder_perm.mem_iff]
  constructor
  · rintro ⟨o, ho, fault, t, rfl, hkey, -⟩
    exact ⟨t, table_mem_objects_iff.mp ho, hkey⟩
  · rintro ⟨t, ht, hkey⟩
    exact ⟨.table t, table_mem_objects_iff.mpr ht, _, t, rfl, hkey, rfl⟩

theorem updatePlan_eq_error (h : g.updatePlan d e = .error fault) :
    ∃ t ∈ g.tables, ¬g.KeyFits e t ∧ fault = .alterPrimaryKey t.name := by
  obtain ⟨o, ho, hfault⟩ := exists_mem_of_mapM_eq_error (map_eq_error_iff.mp h)
  obtain ⟨t, rfl, hkey, rfl⟩ := updatesOf_eq_error_iff.mp hfault
  exact ⟨t, table_mem_objects_iff.mp (g.creationOrder_perm.mem_iff.mp ho), hkey, rfl⟩

theorem create_mem_updatesOf_iff {changes : List Change} {other : SchemaObject}
    (h : g.updatesOf d e o = .ok changes) : .create other ∈ changes ↔ other = o ∧ ¬e.holds o := by
  rcases updatesOf_cases h with ⟨hmissing, rfl⟩ | ⟨t, rfl, ht, -, rfl⟩ | ⟨hheld, -, rfl⟩
  · simp [hmissing]
  · have hheld : e.holds (.table t) := ht
    simp [hheld]
  · simp [hheld]

theorem create_mem_updatePlan_iff (h : g.updatePlan d e = .ok plan) :
    .create o ∈ plan ↔ o ∈ g.objects ∧ ¬e.holds o := by
  obtain ⟨plans, hplans, rfl⟩ := map_eq_ok_iff.mp h
  rw [mem_flatten_of_mapM hplans, ← g.creationOrder_perm.mem_iff]
  constructor
  · rintro ⟨other, hother, changes, hchanges, hcreate⟩
    obtain ⟨rfl, hmissing⟩ := (create_mem_updatesOf_iff hchanges).mp hcreate
    exact ⟨hother, hmissing⟩
  · rintro ⟨ho, hmissing⟩
    obtain ⟨changes, hchanges⟩ := exists_mapM_eq_ok_iff.mp ⟨plans, hplans⟩ o ho
    exact ⟨o, ho, changes, hchanges, (create_mem_updatesOf_iff hchanges).mpr ⟨rfl, hmissing⟩⟩

end Schema

/-! ## Scripts -/

namespace ScriptStyle

variable {mode : ScriptMode}

theorem planScript_eq_error (h : style.planScript g mode plan = .error fault) :
    ∃ t f, .create (.foreignKey t f) ∈ plan ∧ fault = .addForeignKey f.name := by
  obtain ⟨change, hchange, hfault⟩ := exists_mem_of_mapM_eq_error (map_eq_error_iff.mp h)
  obtain ⟨t, f, rfl, -, rfl⟩ := Dialect.statement_eq_error_iff.mp hfault
  exact ⟨t, f, hchange, rfl⟩

/-- A plan is put into words unless it creates a foreign key for which there are none. -/
theorem exists_planScript_eq_error_iff :
    (∃ fault, style.planScript g mode plan = .error fault) ↔
      ¬style.dialect.capabilities.foreignKeys ∧ ∃ t f, .create (.foreignKey t f) ∈ plan := by
  simp only [planScript, map_eq_error_iff, Dialect.statements, exists_mapM_eq_error_iff,
    Dialect.statement_eq_error_iff]
  constructor
  · rintro ⟨_, hchange, _, t, f, rfl, hlacks, -⟩
    exact ⟨hlacks, t, f, hchange⟩
  · rintro ⟨hlacks, t, f, hchange⟩
    exact ⟨_, hchange, _, t, f, rfl, hlacks, rfl⟩

theorem create_mem_createPlan_iff : .create o ∈ g.createPlan ↔ o ∈ g.objects := by
  simp [Schema.createPlan, g.creationOrder_perm.mem_iff]

theorem exists_createScript_eq_error_iff :
    (∃ fault, style.createScript g = .error fault) ↔
      ¬style.dialect.capabilities.foreignKeys ∧ ∃ t ∈ g.tables, ∃ f, f ∈ t.foreignKeys := by
  simp [createScript, exists_planScript_eq_error_iff, create_mem_createPlan_iff,
    Schema.foreignKey_mem_objects_iff]

theorem recreateScript_eq_error_iff :
    style.recreateScript g e = .error fault ↔ style.createScript g = .error fault := by
  rw [recreateScript, bind_eq_error_iff, or_iff_left]
  rintro ⟨create, -, h⟩
  rw [dropScriptFor, Schema.dropPlanFor, planScript_drop] at h
  simp [bind, Except.bind, pure, Except.pure] at h

theorem exists_updateScript_eq_error_iff :
    (∃ fault, style.updateScript g e = .error fault) ↔
      (∃ t ∈ g.tables, ¬g.KeyFits e t) ∨
        ¬style.dialect.capabilities.foreignKeys ∧
          ∃ t ∈ g.tables, ∃ f ∈ t.foreignKeys, ¬e.hasForeignKey t.name f.name := by
  simp only [updateScript, bind_eq_error_iff, exists_or, Schema.exists_updatePlan_eq_error_iff]
  refine or_congr_right' fun hkeys => ?_
  obtain ⟨plan, hplan⟩ : ∃ plan, g.updatePlan style.dialect e = .ok plan := by
    by_contra hnone
    exact hkeys (Schema.exists_updatePlan_eq_error_iff.mp (exists_error_iff.mpr hnone))
  have hcreates : ∀ t f, .create (.foreignKey t f) ∈ plan ↔
      (t ∈ g.tables ∧ f ∈ t.foreignKeys) ∧ ¬e.hasForeignKey t.name f.name := fun t f => by
    rw [Schema.create_mem_updatePlan_iff hplan, Schema.foreignKey_mem_objects_iff]
    rfl
  have hwords : (∃ fault plan, g.updatePlan style.dialect e = .ok plan ∧
      style.planScript g .update plan = .error fault) ↔
        ∃ fault, style.planScript g .update plan = .error fault := by
    simp [hplan]
  rw [hwords, exists_planScript_eq_error_iff]
  simp [hcreates, and_assoc]

theorem createScript_eq_error (h : style.createScript g = .error fault) :
    ∃ t ∈ g.tables, ∃ f ∈ t.foreignKeys, fault = .addForeignKey f.name := by
  obtain ⟨t, f, hcreate, rfl⟩ := planScript_eq_error h
  obtain ⟨ht, hf⟩ := Schema.foreignKey_mem_objects_iff.mp (create_mem_createPlan_iff.mp hcreate)
  exact ⟨t, ht, f, hf, rfl⟩

/-- Keys are looked at before anything is put into words. -/
theorem updateScript_eq_error (h : style.updateScript g e = .error fault) :
    (∃ t ∈ g.tables, ¬g.KeyFits e t ∧ fault = .alterPrimaryKey t.name) ∨
      (∀ t ∈ g.tables, g.KeyFits e t) ∧
        ∃ t ∈ g.tables,
          ∃ f ∈ t.foreignKeys, ¬e.hasForeignKey t.name f.name ∧ fault = .addForeignKey f.name := by
  rcases bind_eq_error_iff.mp h with h | ⟨plan, hplan, h⟩
  · exact .inl (Schema.updatePlan_eq_error h)
  · obtain ⟨t, f, hcreate, rfl⟩ := planScript_eq_error h
    obtain ⟨ho, hmissing⟩ := (Schema.create_mem_updatePlan_iff hplan).mp hcreate
    obtain ⟨ht, hf⟩ := Schema.foreignKey_mem_objects_iff.mp ho
    refine .inr ⟨?_, t, ht, f, hf, hmissing, rfl⟩
    by_contra hkeys
    have hfails :=
      Schema.exists_updatePlan_eq_error_iff (d := style.dialect).mpr (by simpa using hkeys)
    exact exists_error_iff.mp hfails ⟨plan, hplan⟩

/-- The order of the tables is always found, and everything can be dropped. A creation fails just
where foreign keys are declared and the dialect has none. An update fails just where the key of a
table has changed, or where the dialect has no foreign keys and one is missing. The fault names the
first kind of change that is refused, and one that the schema asks for. -/
theorem script_fails_iff (style : ScriptStyle) (g : Schema) (e : LiveSchema) :
    tablesInOrder? g.tables = .ok g.tablesInOrder ∧
      (∃ script, style.dropScript g = .ok script) ∧
      (∃ script, style.dropScriptFor g e = .ok script) ∧
      ((∃ fault, style.createScript g = .error fault) ↔
        ¬style.dialect.capabilities.foreignKeys ∧ ∃ t ∈ g.tables, ∃ f, f ∈ t.foreignKeys) ∧
      ((∃ fault, style.recreateScript g e = .error fault) ↔
        ¬style.dialect.capabilities.foreignKeys ∧ ∃ t ∈ g.tables, ∃ f, f ∈ t.foreignKeys) ∧
      ((∃ fault, style.updateScript g e = .error fault) ↔
        (∃ t ∈ g.tables, ∃ key ∈ e.key? t.name, key ≠ g.key t) ∨
          ¬style.dialect.capabilities.foreignKeys ∧
            ∃ t ∈ g.tables, ∃ f ∈ t.foreignKeys, ¬e.hasForeignKey t.name f.name) ∧
      (∀ fault, style.createScript g = .error fault ∨ style.recreateScript g e = .error fault →
        ∃ t ∈ g.tables, ∃ f ∈ t.foreignKeys, fault = .addForeignKey f.name) ∧
      ∀ fault, style.updateScript g e = .error fault →
        (∃ t ∈ g.tables, ¬g.KeyFits e t ∧ fault = .alterPrimaryKey t.name) ∨
          (∀ t ∈ g.tables, g.KeyFits e t) ∧ ∃ t ∈ g.tables, ∃ f ∈ t.foreignKeys,
            ¬e.hasForeignKey t.name f.name ∧ fault = .addForeignKey f.name := by
  refine ⟨g.tablesInOrder?_eq, ⟨_, planScript_drop ..⟩, ⟨_, planScript_drop ..⟩,
    exists_createScript_eq_error_iff, ?recreate, ?update, ?created,
    fun fault => updateScript_eq_error⟩
  case recreate =>
    simp only [recreateScript_eq_error_iff, exists_createScript_eq_error_iff]
  case update =>
    simp [exists_updateScript_eq_error_iff, Schema.KeyFits]
  case created =>
    intro fault h
    rw [recreateScript_eq_error_iff, or_self] at h
    exact createScript_eq_error h

end ScriptStyle

end ShardKeys
