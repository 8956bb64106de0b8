import ShardKeys.Proofs.Script.Effect
import ShardKeys.Proofs.Script.Framing

/-! # Updates run through and leave nothing to do

An update looks at the database once and goes through the objects in the order of creation. What is
up to date behind the objects that were passed stays so, because the database only grows, and a
table that is new by now is one of those objects.
-/

namespace ShardKeys

namespace Schema

variable (g : Schema)

/-- No other key than its own is known of a table. -/
def KeyFits (e : LiveSchema) (t : Table) : Prop :=
  ∀ key ∈ e.key? t.name, key = g.key t

instance (e : LiveSchema) (t : Table) : Decidable (g.KeyFits e t) :=
  inferInstanceAs (Decidable (∀ key ∈ e.key? t.name, key = g.key t))

/-- Nothing is missing of an object. -/
structure UpToDate (e : LiveSchema) (o : SchemaObject) : Prop where
  holds : e.holds o
  key : ∀ t, o = .table t → g.KeyFits e t
  columns : ∀ t, o = .table t → ∀ c ∈ g.columns t, e.hasColumn t.name c.name

/-- What the changes for some objects have made of a live schema. -/
structure Updated (e : LiveSchema) (done : List SchemaObject) (f : LiveSchema) : Prop where
  grown : e.Within f
  upToDate : ∀ o ∈ done, g.UpToDate f o
  origin : ∀ name, f.hasTable name →
    e.hasTable name ∨ ∃ t, g.table? name = some t ∧ .table t ∈ done

variable {g} {d : Dialect} {e f next : LiveSchema} {o : SchemaObject} {done : List SchemaObject}
  {changes : List Change} {t : Table}

/-! ## Objects that are up to date -/

theorem KeyFits.within (h : g.KeyFits e t) (ht : e.hasTable t.name) (hef : e.Within f) :
    g.KeyFits f t := by
  rwa [KeyFits, hef.key?_eq ht]

theorem UpToDate.within (h : g.UpToDate e o) (hef : e.Within f) : g.UpToDate f o where
  holds := hef.holds h.holds
  key t ho := (h.key t ho).within (by subst ho; exact h.holds) hef
  columns t ho c hc := hef.hasColumn (h.columns t ho c hc)

theorem upToDate_record (h : ∀ name ∈ o.requires, e.hasTable name) :
    g.UpToDate (g.record e o) o where
  holds := holds_record h
  key := by
    rintro t rfl
    simp [KeyFits, record, liveTable, LiveSchema.key?]
  columns := by
    rintro t rfl c hc
    have hmem : ∃ c' ∈ g.columns t, c'.name = c.name := ⟨c, hc, rfl⟩
    simpa [record, liveTable, LiveSchema.hasColumn] using hmem

/-! ## Changes for one object -/

theorem updatesOf_table (ht : e.hasTable t.name) :
    g.updatesOf d e (.table t) =
      if g.KeyFits e t then .ok ((g.missingColumns e t).map (.addColumn t))
      else .error (.alterPrimaryKey t.name) := by
  obtain ⟨live, hlive⟩ := LiveSchema.hasTable_eq_true_iff.mp ht
  have hfits : g.KeyFits e t ↔ live.key.any (· ≠ g.key t) = false := by
    cases hkey : live.key <;> simp [KeyFits, LiveSchema.key?, hlive, hkey]
  by_cases h : g.KeyFits e t
  · rw [if_pos h]
    simp only [updatesOf, hlive, hfits.mp h]
    rfl
  · have hkey : live.key.any (· ≠ g.key t) = true := Bool.of_not_eq_false (hfits.not.mp h)
    rw [if_neg h]
    simp only [updatesOf, hlive, hkey]
    rfl

theorem updatesOf_of_ne_table (h : ∀ t, o ≠ .table t) :
    g.updatesOf d e o = .ok (if e.holds o then [] else [.create o]) := by
  cases o with
  | table t => exact absurd rfl (h t)
  | _ => rfl

/-- All that an update can do for an object: create it, add columns to a table whose key fits, or
nothing. -/
theorem updatesOf_cases (h : g.updatesOf d e o = .ok changes) :
    (¬e.holds o ∧ changes = [.create o]) ∨
      (∃ t, o = .table t ∧ e.hasTable t.name ∧ g.KeyFits e t ∧
        changes = (g.missingColumns e t).map (.addColumn t)) ∨
      (e.holds o ∧ (∀ t, o ≠ .table t) ∧ changes = []) := by
  by_cases ho : ∃ t, o = .table t
  · obtain ⟨t, rfl⟩ := ho
    by_cases ht : e.hasTable t.name
    · rw [updatesOf_table ht] at h
      by_cases hfits : g.KeyFits e t
      · rw [if_pos hfits] at h
        exact .inr (.inl ⟨t, rfl, ht, hfits, (Except.ok.inj h).symm⟩)
      · simp [hfits] at h
    · have hnone : e.table? t.name = none := by simpa [LiveSchema.hasTable] using ht
      exact .inl ⟨ht, by simpa [updatesOf, hnone] using h.symm⟩
  · have hne : ∀ t, o ≠ .table t := fun t ht => ho ⟨t, ht⟩
    rw [updatesOf_of_ne_table hne] at h
    by_cases hholds : e.holds o
    · exact .inr (.inr ⟨hholds, hne, by simpa [hholds] using h.symm⟩)
    · exact .inl ⟨hholds, by simpa [hholds] using h.symm⟩

theorem UpToDate.updatesOf (h : g.UpToDate e o) : g.updatesOf d e o = .ok [] := by
  by_cases ho : ∃ t, o = .table t
  · obtain ⟨t, rfl⟩ := ho
    have hmissing : g.missingColumns e t = [] := by
      simpa [missingColumns] using h.columns t rfl
    rw [updatesOf_table h.holds, if_pos (h.key t rfl), hmissing, List.map_nil]
  · rw [updatesOf_of_ne_table fun t ht => ho ⟨t, ht⟩, if_pos h.holds]

/-! ## A step and a run -/

/-- A step that brings an object up to date. The only table that it may add is the object. -/
theorem Updated.step (h : g.Updated e done f) (hgrown : f.Within next) (ho : g.UpToDate next o)
    (hnew : ∀ name, next.hasTable name →
      f.hasTable name ∨ ∃ t, g.table? name = some t ∧ o = .table t) :
    g.Updated e (done ++ [o]) next where
  grown := h.grown.trans hgrown
  upToDate := by
    intro a ha
    rcases List.mem_append.mp ha with ha | ha
    · exact (h.upToDate a ha).within hgrown
    · obtain rfl := List.mem_singleton.mp ha
      exact ho
  origin := by
    intro name hname
    rcases hnew name hname with hold | ⟨t, ht, rfl⟩
    · rcases h.origin name hold with hold | ⟨t, ht, hdone⟩
      · exact .inl hold
      · exact .inr ⟨t, ht, List.mem_append_left _ hdone⟩
    · exact .inr ⟨t, ht, by simp⟩

theorem Updated.hasTable_of_requires (h : g.Updated e done f) (hready : g.MayCreate done o) :
    ∀ name ∈ o.requires, f.hasTable name := by
  intro name hname
  obtain ⟨t, ht, hdone⟩ := hready.supplied name hname
  rw [← (table?_eq_some_iff.mp ht).2]
  exact (h.upToDate _ hdone).holds

/-- A table that was not there is not there yet: it is not among the objects that were passed. -/
theorem Updated.not_hasTable (h : g.Updated e done f) (hready : g.MayCreate done (.table t))
    (hmissing : ¬e.hasTable t.name) : ¬f.hasTable t.name := by
  intro hmade
  obtain ⟨ht, hfresh⟩ := hready.fresh t rfl
  rcases h.origin t.name hmade with hold | ⟨u, hu, hdone⟩
  · exact hmissing hold
  · obtain rfl := Option.some.inj ((table?_of_mem ht).symm.trans hu)
    exact hfresh hdone

theorem Updated.create (h : g.Updated e done f) (hready : g.MayCreate done o)
    (hmissing : ¬e.holds o) :
    g.carryOut? f (.create o) = some (g.record f o) ∧ g.Updated e (done ++ [o]) (g.record f o) := by
  have hrequired := h.hasTable_of_requires hready
  have hnew : ∀ t, o = .table t → ¬f.hasTable t.name := by
    rintro t rfl
    exact h.not_hasTable hready hmissing
  refine ⟨by simpa [carryOut?] using hrequired,
    h.step (within_record hnew) (upToDate_record hrequired) ?_⟩
  intro name hname
  rcases hasTable_record hname with hold | ⟨t, rfl, rfl⟩
  · exact .inl hold
  · exact .inr ⟨t, table?_of_mem (hready.fresh t rfl).1, rfl⟩

/-- The columns that were missing at first are all that a table lacks. -/
theorem Updated.addColumns (h : g.Updated e done f) (ht : e.hasTable t.name)
    (hfits : g.KeyFits e t) :
    ∃ next, g.carryOutAll? f ((g.missingColumns e t).map (.addColumn t)) = some next ∧
      g.Updated e (done ++ [.table t]) next := by
  obtain ⟨next, hrun, hgrown, hcolumns, htables⟩ :=
    carryOutAll?_addColumn (g := g) (g.missingColumns e t) (h.grown.hasTable ht)
  have hwithin := h.grown.trans hgrown
  refine ⟨next, hrun, h.step hgrown ⟨hwithin.hasTable ht, ?key, ?columns⟩ ?tables⟩
  case key =>
    rintro u ⟨⟩
    exact hfits.within ht hwithin
  case columns =>
    rintro u ⟨⟩ c hc
    by_cases hcolumn : e.hasColumn t.name c.name
    · exact hwithin.hasColumn hcolumn
    · exact hcolumns c (List.mem_filter.mpr ⟨hc, by simpa using hcolumn⟩)
  case tables =>
    exact fun name hname => .inl (htables name ▸ hname)

theorem Updated.pass (h : g.Updated e done f) (ho : ∀ t, o ≠ .table t) (hheld : e.holds o) :
    g.Updated e (done ++ [o]) f := by
  have hnothing : g.UpToDate f o :=
    ⟨h.grown.holds hheld, fun t ht => absurd ht (ho t), fun t ht => absurd ht (ho t)⟩
  exact h.step (.refl f) hnothing fun _ => .inl

theorem Updated.updatesOf (h : g.Updated e done f) (hready : g.MayCreate done o)
    (hchanges : g.updatesOf d e o = .ok changes) :
    ∃ next, g.carryOutAll? f changes = some next ∧ g.Updated e (done ++ [o]) next := by
  rcases updatesOf_cases hchanges with ⟨hmissing, rfl⟩ | ⟨t, rfl, ht, hfits, rfl⟩ | ⟨hheld, ho, rfl⟩
  · obtain ⟨hrun, hnext⟩ := h.create hready hmissing
    exact ⟨g.record f o, by simp [carryOutAll?, hrun], hnext⟩
  · exact h.addColumns ht hfits
  · exact ⟨f, rfl, h.pass ho hheld⟩

theorem Updated.updates {rest : List SchemaObject} {plans : List (List Change)}
    (h : g.Updated e done f) (hrest : ReadyOrder g.MayCreate done rest)
    (hplans : List.Forall₂ (fun o changes => g.updatesOf d e o = .ok changes) rest plans) :
    ∃ next, g.carryOutAll? f plans.flatten = some next ∧ g.Updated e (done ++ rest) next := by
  induction hplans generalizing done f with
  | nil => exact ⟨f, rfl, by simpa using h⟩
  | cons hchanges _ ih =>
      obtain ⟨hready, hrest⟩ := hrest
      obtain ⟨middle, hfirst, hmiddle⟩ := h.updatesOf hready hchanges
      obtain ⟨next, hrun, hnext⟩ := ih hmiddle hrest
      refine ⟨next, ?_, by simpa using hnext⟩
      rw [List.flatten_cons, carryOutAll?_append, hfirst]
      exact hrun

theorem updatePlan_eq_ok_iff {plan : List Change} :
    g.updatePlan d e = .ok plan ↔
      ∃ plans,
        List.Forall₂ (fun o changes => g.updatesOf d e o = .ok changes) g.creationOrder plans ∧
        plans.flatten = plan := by
  simp only [← mapM_eq_ok_iff]
  cases h : g.creationOrder.mapM (g.updatesOf d e) <;> simp [updatePlan, h, Except.map]

/-- A plan is carried out as a whole, and brings every object up to date. -/
theorem updated_of_updatePlan {plan : List Change} (h : g.updatePlan d e = .ok plan) :
    ∃ f, g.carryOutAll? e plan = some f ∧ g.Updated e g.creationOrder f := by
  obtain ⟨plans, hplans, rfl⟩ := updatePlan_eq_ok_iff.mp h
  have hstart : g.Updated e [] e := ⟨.refl e, by simp, fun _ => .inl⟩
  exact hstart.updates g.creationOrder_readyOrder hplans

theorem updatePlan_of_upToDate (h : ∀ o ∈ g.creationOrder, g.UpToDate e o) :
    g.updatePlan d e = .ok [] := by
  refine updatePlan_eq_ok_iff.mpr ⟨g.creationOrder.map fun _ => [], ?_, by simp⟩
  rw [List.forall₂_map_right_iff, List.forall₂_same]
  exact fun o ho => (h o ho).updatesOf

end Schema

namespace ScriptStyle

variable {style : ScriptStyle} {g : Schema} {e : LiveSchema} {script : Script}

theorem updateScript_cases (h : style.updateScript g e = .ok script) :
    ∃ plan statements, g.updatePlan style.dialect e = .ok plan ∧
      style.dialect.statements g plan = .ok statements ∧
      script = style.frame .update statements := by
  obtain ⟨plan, hplan, hplanned⟩ := bind_eq_ok_iff.mp h
  obtain ⟨statements, hstatements, hscript⟩ := planScript_eq_ok_iff.mp hplanned
  exact ⟨plan, statements, hplan, hstatements, hscript⟩

theorem lines_updateScript (h : g.updatePlan style.dialect e = .ok []) :
    (style.updateScript g e).map (·.lines) = .ok [] := by
  have hframe : (style.frame .update []).lines = [] := by simp [frame, Framing.script]
  rw [← hframe]
  simp [updateScript, h, planScript, Dialect.statements, Except.map, bind, Except.bind, pure,
    Except.pure]

/-- An update script takes one statement for each change of a plan. The plan can be carried out
change by change, each finds the tables that it needs, and nothing gets lost. Afterwards all that is
declared is there, and another update finds nothing to do. -/
theorem updateScript_converges (h : style.updateScript g e = .ok script) :
    ∃ plan statements f,
      g.updatePlan style.dialect e = .ok plan ∧
        style.dialect.statements g plan = .ok statements ∧
        script = style.frame .update statements ∧
        g.carryOutAll? e plan = some f ∧
        e.Within f ∧
        (∀ o ∈ g.objects, f.holds o) ∧
        (∀ t ∈ g.tables, t.columns ⊆ g.columns t ∧ ∀ c ∈ g.columns t, f.hasColumn t.name c.name) ∧
        (style.updateScript g f).map (·.lines) = .ok [] := by
  obtain ⟨plan, statements, hplan, hstatements, hscript⟩ := updateScript_cases h
  obtain ⟨f, hrun, hupdated⟩ := Schema.updated_of_updatePlan hplan
  have hobjects : ∀ o ∈ g.objects, g.UpToDate f o := fun o ho =>
    hupdated.upToDate o (g.creationOrder_perm.mem_iff.mpr ho)
  refine ⟨plan, statements, f, hplan, hstatements, hscript, hrun, hupdated.grown, ?held, ?columns,
    ?idle⟩
  case held =>
    exact fun o ho => (hobjects o ho).holds
  case columns =>
    intro t ht
    exact ⟨Schema.declared_subset_columns ht,
      (hobjects (.table t) (Schema.table_mem_objects ht)).columns t rfl⟩
  case idle =>
    exact lines_updateScript (Schema.updatePlan_of_upToDate hupdated.upToDate)

end ScriptStyle

/-- A child that is declared before its parent, with an index, a foreign key and a sequence. -/
def Schema.family : Schema where
  tables := [
    { name := "Child"
      columns := [{ name := "ChildId", type := "INT64", nullable := false }]
      key := ["ChildId"]
      interleave := some { parent := "Parent" }
      indexes := [{ name := "ChildByParent", columns := ["ParentId"] }]
      foreignKeys :=
        [{ name := "ChildOrigin", columns := ["ParentId"], table := "Parent",
           references := ["ParentId"] }] },
    { name := "Parent"
      columns :=
        [{ name := "ParentId", type := "INT64", nullable := false },
          { name := "Name", type := "STRING(MAX)" }]
      key := ["ParentId"] }]
  faultless := by decide +kernel
  sequences := [
    { name := ⟨some "billing", "invoice_seq"⟩
      start := 7
      poolSize := 20
      excluded := .ofIntervals [⟨⟨9, 12⟩, by decide⟩]
      start_pos := by decide
      start_lt := by decide
      poolSize_pos := by decide }]
  distinct := by simp

/-- The parent exists without one of its columns. -/
theorem ScriptStyle.updateScript_converges_family :
    let e := LiveSchema.withTable {} "Parent" (LiveTable.withColumn {} "ParentId")
    let script : Script := {
      lines := [
        "START BATCH DDL",
        "create sequence billing.invoice_seq options(sequence_kind=\"bit_reversed_positive\", "
          ++ "start_with_counter=7, skip_range_min=9, skip_range_max=12)",
        "alter table Parent ADD COLUMN Name STRING(MAX)",
        "create table Child (ParentId INT64 not null,ChildId INT64 not null) "
          ++ "PRIMARY KEY (ParentId,ChildId), INTERLEAVE IN PARENT Parent",
        "create index ChildByParent on Child (ParentId)",
        "alter table Child add constraint ChildOrigin foreign key (ParentId) references Parent (ParentId)",
        "RUN BATCH"]
      events := [.scriptGenerated .update 5, .scriptFramed .update 5 1] }
    ScriptStyle.updateScript {} .family e = .ok script ∧
      ∃ f, e.Within f ∧ (∀ o ∈ Schema.family.objects, f.holds o) ∧
        (ScriptStyle.updateScript {} .family f).map (·.lines) = .ok [] := by
  intro e script
  have h : ScriptStyle.updateScript {} .family e = .ok script := by decide +kernel
  obtain ⟨-, -, f, -, -, -, -, hgrown, hobjects, -, hidle⟩ := updateScript_converges h
  exact ⟨h, f, hgrown, hobjects, hidle⟩

end ShardKeys
