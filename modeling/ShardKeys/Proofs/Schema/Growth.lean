import ShardKeys.Schema.Live

/-! # Growth of a live schema

A live schema grows when nothing that is known of it gets lost: every table keeps its columns, its
indexes, its foreign keys and what is known of its key.
-/

namespace ShardKeys

/-- All that is known of one table is known of another, and of the key nothing else is. -/
structure LiveTable.Within (live more : LiveTable) : Prop where
  key : more.key = live.key
  columns : ∀ name, live.columns.contains name → more.columns.contains name
  indexes : ∀ name, live.indexes.contains name → more.indexes.contains name
  foreignKeys : ∀ name, live.foreignKeys.contains name → more.foreignKeys.contains name

/-- All that one live schema holds is held by another. -/
structure LiveSchema.Within (e f : LiveSchema) : Prop where
  tables : ∀ name live, e.table? name = some live →
    ∃ more, f.table? name = some more ∧ live.Within more
  sequences : ∀ name, e.hasSequence name → f.hasSequence name

namespace LiveTable

variable {live more most : LiveTable} (name : String)

theorem Within.refl (live : LiveTable) : live.Within live :=
  ⟨rfl, fun _ => id, fun _ => id, fun _ => id⟩

theorem Within.trans (h : live.Within more) (h' : more.Within most) : live.Within most where
  key := h'.key.trans h.key
  columns name hname := h'.columns name (h.columns name hname)
  indexes name hname := h'.indexes name (h.indexes name hname)
  foreignKeys name hname := h'.foreignKeys name (h.foreignKeys name hname)

theorem within_withColumn : live.Within (live.withColumn name) :=
  { Within.refl live with columns := by simp +contextual [withColumn] }

theorem within_withIndex : live.Within (live.withIndex name) :=
  { Within.refl live with indexes := by simp +contextual [withIndex] }

theorem within_withForeignKey : live.Within (live.withForeignKey name) :=
  { Within.refl live with foreignKeys := by simp +contextual [withForeignKey] }

end LiveTable

namespace LiveSchema

/-- The key of a table, if it is known. -/
def key? (e : LiveSchema) (name : String) : Option (List String) :=
  (e.table? name).bind (·.key)

variable {e f h : LiveSchema} {name : String} {live : LiveTable} {record : LiveTable → LiveTable}

theorem Within.refl (e : LiveSchema) : e.Within e :=
  ⟨fun _ live hlive => ⟨live, hlive, .refl live⟩, fun _ => id⟩

theorem Within.trans (hef : e.Within f) (hfh : f.Within h) : e.Within h := by
  constructor
  case tables =>
    intro name live hlive
    obtain ⟨more, hmore, hwithin⟩ := hef.tables name live hlive
    obtain ⟨most, hmost, hwithin'⟩ := hfh.tables name more hmore
    exact ⟨most, hmost, hwithin.trans hwithin'⟩
  case sequences =>
    intro name hname
    exact hfh.sequences name (hef.sequences name hname)

/-! ## Look-ups in a grown schema -/

theorem hasTable_eq_true_iff : e.hasTable name ↔ ∃ live, e.table? name = some live :=
  Option.isSome_iff_exists

theorem Within.hasTable (hef : e.Within f) (h : e.hasTable name) : f.hasTable name := by
  obtain ⟨live, hlive⟩ := hasTable_eq_true_iff.mp h
  obtain ⟨more, hmore, -⟩ := hef.tables name live hlive
  exact hasTable_eq_true_iff.mpr ⟨more, hmore⟩

theorem Within.key?_eq (hef : e.Within f) (h : e.hasTable name) : f.key? name = e.key? name := by
  obtain ⟨live, hlive⟩ := hasTable_eq_true_iff.mp h
  obtain ⟨more, hmore, hwithin⟩ := hef.tables name live hlive
  simp [key?, hlive, hmore, hwithin.key]

theorem Within.any {known : LiveTable → Bool} (hef : e.Within f)
    (hknown : ∀ {live more : LiveTable}, live.Within more → known live → known more)
    (h : (e.table? name).any known) : (f.table? name).any known := by
  obtain ⟨live, hlive, hk⟩ := Option.any_eq_true _ _ |>.mp h
  obtain ⟨more, hmore, hwithin⟩ := hef.tables name live hlive
  exact Option.any_eq_true _ _ |>.mpr ⟨more, hmore, hknown hwithin hk⟩

theorem Within.hasColumn {column : String} (hef : e.Within f) (h : e.hasColumn name column) :
    f.hasColumn name column :=
  hef.any (fun hwithin => hwithin.columns column) h

theorem Within.holds {o : SchemaObject} (hef : e.Within f) (h : e.holds o) : f.holds o := by
  cases o with
  | sequence s => exact hef.sequences s.name.text h
  | table t => exact hef.hasTable h
  | index t i => exact hef.any (fun hwithin => hwithin.indexes i.name) h
  | foreignKey t k => exact hef.any (fun hwithin => hwithin.foreignKeys k.name) h

/-! ## Ways to grow -/

theorem within_withSequence (e : LiveSchema) (name : String) : e.Within (e.withSequence name) where
  tables _ live hlive := ⟨live, hlive, .refl live⟩
  sequences := by simp +contextual

theorem within_withTable (h : e.table? name = none) : e.Within (e.withTable name live) where
  tables other old hold := by
    have hne : other ≠ name := by
      rintro rfl
      simp [h] at hold
    exact ⟨old, by simpa [hne] using hold, .refl old⟩
  sequences := by simp

theorem within_alterTable (h : ∀ live : LiveTable, live.Within (record live)) :
    e.Within (e.alterTable name record) where
  tables other old hold := by
    by_cases heq : other = name
    · subst heq
      exact ⟨record old, by simp [hold], h old⟩
    · exact ⟨old, by simpa [heq] using hold, .refl old⟩
  sequences := by simp

theorem hasTable_alterTable {other : String} :
    (e.alterTable name record).hasTable other = e.hasTable other := by
  by_cases heq : other = name
  · simp [hasTable, heq]
  · simp [hasTable, heq]

end LiveSchema

end ShardKeys
