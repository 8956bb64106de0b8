import Mathlib.Data.Multiset.AddSub
import ShardKeys.Proofs.Schema.WellFormed
import ShardKeys.Proofs.Script.Framing
import ShardKeys.Proofs.Script.Update

/-! # Recreating leads from any part of a schema to the whole

A recreation drops what exists against the order of creation, so that nothing left depends on what
goes, and it creates everything in that order where nothing is left. Objects are told apart by what
is declared of them and not by name.
-/

namespace ShardKeys

instance : DecidableRel SchemaObject.DependsOn := fun o other =>
  match other with
  | .table t => decidable_of_iff (t.name ∈ o.requires) (by simp [SchemaObject.DependsOn])
  | .sequence _ | .index _ _ | .foreignKey _ _ => isFalse (by simp [SchemaObject.DependsOn])

namespace Schema

/-- What a change makes of the objects that are held. Each declaration is an object of its own, so
that a foreign key that a table lists twice can be held twice. An object is created if it is held
less often than it is declared and the tables that it depends on are there. It is dropped if it is
there and nothing that is there depends on it. -/
def perform? (g : Schema) (held : Multiset SchemaObject) : Change → Option (Multiset SchemaObject)
  | .create o =>
      if held.count o < g.objects.count o ∧
          ∀ name ∈ o.requires, ∃ t ∈ g.tables, t.name = name ∧ .table t ∈ held then
        some (o ::ₘ held)
      else none
  | .addColumn _ _ => none
  | .drop o =>
      if o ∈ held ∧ ∀ other ∈ held, ¬other.DependsOn o then some (held.erase o) else none

/-- What changes make of the objects that are held, one after the other. -/
def performAll? (g : Schema) (held : Multiset SchemaObject) (plan : List Change) :
    Option (Multiset SchemaObject) :=
  plan.foldlM g.perform? held

variable {g : Schema} {e : LiveSchema} {held : Multiset SchemaObject} {o : SchemaObject}
  {xs done rest : List SchemaObject}

theorem performAll?_cons {change : Change} {plan : List Change} :
    g.performAll? held (change :: plan) = (g.perform? held change).bind (g.performAll? · plan) :=
  List.foldlM_cons

theorem performAll?_append {plan more : List Change} :
    g.performAll? held (plan ++ more) = (g.performAll? held plan).bind (g.performAll? · more) :=
  List.foldlM_append

/-- Where no table lists a foreign key twice, every object is declared once. -/
theorem objects_nodup (h : ∀ t ∈ g.tables, t.foreignKeys.Nodup) : g.objects.Nodup := by
  have hsequences : (g.sequences.map SchemaObject.sequence).Nodup :=
    (g.distinct.of_map _).map fun _ _ h => by simpa using h
  have howner : ∀ t : Table, ∀ o ∈ .table t :: (t.indexObjects ++ t.foreignKeyObjects),
      o.table? = some t := by
    intro t o ho
    simp only [Table.indexObjects, Table.foreignKeyObjects, List.mem_cons, List.mem_append,
      List.mem_map] at ho
    rcases ho with rfl | ⟨i, -, rfl⟩ | ⟨f, -, rfl⟩ <;> rfl
  rw [objects, List.nodup_append', List.nodup_flatMap]
  refine ⟨hsequences, ⟨?each, ?apart⟩, ?disjoint⟩
  case each =>
    intro t ht
    have hindexes : t.indexes.Nodup :=
      ((List.nodup_flatMap.mp g.wellFormed.indexes).1 t ht).of_map _
    have hindexObjects : t.indexObjects.Nodup := hindexes.map fun _ _ h => by simpa using h
    have hforeignKeyObjects : t.foreignKeyObjects.Nodup :=
      (h t ht).map fun _ _ h => by simpa using h
    rw [List.nodup_cons, List.nodup_append']
    refine ⟨?_, hindexObjects, hforeignKeyObjects, ?_⟩
    · simp [Table.indexObjects, Table.foreignKeyObjects]
    · simp [Table.indexObjects, Table.foreignKeyObjects, List.disjoint_left]
  case apart =>
    refine g.tables_nodup.imp fun htu o ho hou => ?_
    exact htu (Option.some.inj ((howner _ o ho).symm.trans (howner _ o hou)))
  case disjoint =>
    intro o hsequence htable
    obtain ⟨s, -, rfl⟩ := List.mem_map.mp hsequence
    obtain ⟨t, -, ho⟩ := List.mem_flatMap.mp htable
    simpa [SchemaObject.table?] using howner t _ ho

/-! ## Dropping -/

theorem performAll?_drop (hself : ∀ o ∈ xs, ¬o.DependsOn o)
    (hsafe : xs.Pairwise fun o later => ¬later.DependsOn o) :
    g.performAll? xs (xs.map .drop) = some 0 := by
  induction xs with
  | nil => rfl
  | cons o rest ih =>
      obtain ⟨ho, hrest⟩ := List.pairwise_cons.mp hsafe
      have hfree : ∀ other ∈ o :: rest, ¬other.DependsOn o :=
        List.forall_mem_cons.mpr ⟨hself o List.mem_cons_self, ho⟩
      have hdrop : g.perform? ↑(o :: rest) (.drop o) = some ↑rest := by
        rw [perform?, if_pos ⟨by simp, hfree⟩]
        simp
      rw [List.map_cons, performAll?_cons, hdrop]
      exact ih (fun other hother => hself other (List.mem_cons_of_mem o hother)) hrest

/-! ## Creating -/

theorem performAll?_create (horder : ReadyOrder g.MayCreate done rest)
    (hperm : (done ++ rest).Perm g.objects) :
    g.performAll? done (rest.map .create) = some ↑(done ++ rest) := by
  induction rest generalizing done with
  | nil => simp [performAll?]
  | cons o rest ih =>
      obtain ⟨hready, horder⟩ := horder
      have habsent : done.count o < g.objects.count o := by
        rw [← hperm.count_eq o]
        simp
      have hsupplied : ∀ name ∈ o.requires, ∃ t ∈ g.tables, t.name = name ∧ .table t ∈ done := by
        intro name hname
        obtain ⟨t, ht, hdone⟩ := hready.supplied name hname
        obtain ⟨hmem, heq⟩ := table?_eq_some_iff.mp ht
        exact ⟨t, hmem, heq, hdone⟩
      have hcreate : g.perform? done (.create o) = some ↑(done ++ [o]) := by
        rw [perform?, if_pos ⟨by simpa using habsent, hsupplied⟩, Multiset.cons_coe,
          Option.some_inj]
        exact Multiset.coe_eq_coe.mpr (List.perm_append_singleton o done).symm
      rw [List.map_cons, performAll?_cons, hcreate]
      simpa using ih horder (by simpa using hperm)

/-! ## Dropping and creating -/

variable (g)

theorem removalOrder_perm : g.removalOrder.Perm g.objects :=
  (List.reverse_perm _).trans g.creationOrder_perm

theorem not_dependsOn_self (ho : o ∈ g.objects) : ¬o.DependsOn o := by
  obtain ⟨done, rest, horder⟩ := List.append_of_mem (g.creationOrder_perm.mem_iff.mpr ho)
  have hready : g.MayCreate ([] ++ done) o :=
    ReadyOrder.ready_of_append (horder ▸ g.creationOrder_readyOrder)
  exact hready.not_dependsOn hready (List.Subset.refl _)

/-- Whatever part of the objects exists, it can be dropped. -/
theorem performAll?_dropPlanFor (e : LiveSchema) :
    g.performAll? ↑(g.objects.filter e.holds) (g.dropPlanFor e) = some 0 := by
  have hheld : (g.objects.filter e.holds : Multiset SchemaObject) = g.removalOrder.filter e.holds :=
    Multiset.coe_eq_coe.mpr (g.removalOrder_perm.filter _).symm
  rw [hheld]
  refine performAll?_drop ?_ ?_
  · intro o ho
    exact g.not_dependsOn_self (g.removalOrder_perm.mem_iff.mp (List.mem_filter.mp ho).1)
  · exact (List.pairwise_reverse.mpr g.creationOrder_pairwise).filter _

/-- Everything can be created where nothing is. -/
theorem performAll?_createPlan : g.performAll? 0 g.createPlan = some ↑g.objects := by
  have hcreate := performAll?_create g.creationOrder_readyOrder g.creationOrder_perm
  rw [List.nil_append, Multiset.coe_eq_coe.mpr g.creationOrder_perm] at hcreate
  exact hcreate

end Schema

namespace ScriptStyle

variable {style : ScriptStyle} {g : Schema} {e : LiveSchema} {script : Script}

theorem recreateScript_cases (h : style.recreateScript g e = .ok script) :
    ∃ drops creates,
      style.dialect.statements g (g.dropPlanFor e) = .ok drops ∧
        style.dialect.statements g g.createPlan = .ok creates ∧
        script.lines = (style.frame .drop drops).lines ++ (style.frame .create creates).lines := by
  obtain ⟨create, hcreate, h⟩ := bind_eq_ok_iff.mp h
  obtain ⟨drop, hdrop, h⟩ := bind_eq_ok_iff.mp h
  obtain ⟨creates, hcreates, rfl⟩ := planScript_eq_ok_iff.mp hcreate
  obtain ⟨drops, hdrops, rfl⟩ := planScript_eq_ok_iff.mp hdrop
  obtain rfl := Except.ok.inj h
  exact ⟨drops, creates, hdrops, hcreates, rfl⟩

/-- A recreation script takes one statement for each change of two plans. Between their batches
there are markers at most, and what follows a change of the schema stands once, at the very end. The
first plan can be carried out, change by change, on whatever part of the declared objects exists,
and leaves nothing; from there the second creates just what is declared, each object once if no
foreign key is listed twice. -/
theorem recreateScript_rebuilds (h : style.recreateScript g e = .ok script) :
    ∃ drops creates dropBatches createBatches,
      style.dialect.statements g (g.dropPlanFor e) = .ok drops ∧
        style.dialect.statements g g.createPlan = .ok creates ∧
        dropBatches.flatten = drops ∧ createBatches.flatten = creates ∧
        script.lines =
          style.framing.layOut dropBatches ++ style.framing.layOut createBatches
            ++ style.framing.after ∧
        g.performAll? ↑(g.objects.filter e.holds) (g.dropPlanFor e) = some 0 ∧
        g.performAll? ↑(g.objects.filter e.holds) (g.dropPlanFor e ++ g.createPlan) =
          some ↑g.objects ∧
        ((∀ t ∈ g.tables, t.foreignKeys.Nodup) → g.objects.Nodup) := by
  obtain ⟨drops, creates, hdrops, hcreates, hlines⟩ := recreateScript_cases h
  have hdropped := g.performAll?_dropPlanFor e
  refine ⟨drops, creates, style.framing.batches drops, style.framing.batches creates, hdrops,
    hcreates,
    Framing.flatten_batches _ _, Framing.flatten_batches _ _, ?_, hdropped, ?_,
    Schema.objects_nodup⟩
  · rw [hlines, lines_frame_drop, lines_frame_create, List.append_assoc]
  · rw [Schema.performAll?_append, hdropped]
    exact g.performAll?_createPlan

/-- The child exists with its foreign key but without the parent. Batches hold two statements, and a
row follows. -/
theorem recreateScript_rebuilds_family :
    let e := LiveSchema.withTable {} "Child" (LiveTable.withForeignKey {} "ChildOrigin")
    let style : ScriptStyle :=
      { framing := { limit := some ⟨2, by decide⟩, after := ["insert into Parent"] } }
    let script : Script := {
      lines := [
        "START BATCH DDL",
        "alter table Child drop constraint ChildOrigin",
        "drop table Child",
        "RUN BATCH",
        "START BATCH DDL",
        "create sequence billing.invoice_seq options(sequence_kind=\"bit_reversed_positive\", "
          ++ "start_with_counter=7, skip_range_min=9, skip_range_max=12)",
        "create table Parent (ParentId INT64 not null,Name STRING(MAX)) PRIMARY KEY (ParentId)",
        "RUN BATCH",
        "START BATCH DDL",
        "create table Child (ParentId INT64 not null,ChildId INT64 not null) "
          ++ "PRIMARY KEY (ParentId,ChildId), INTERLEAVE IN PARENT Parent",
        "create index ChildByParent on Child (ParentId)",
        "RUN BATCH",
        "START BATCH DDL",
        "alter table Child add constraint ChildOrigin foreign key (ParentId) references Parent (ParentId)",
        "RUN BATCH",
        "insert into Parent"]
      events := [.scriptGenerated .create 5, .scriptFramed .create 5 3, .scriptGenerated .drop 2,
        .scriptFramed .drop 2 1] }
    style.recreateScript .family e = .ok script ∧
      Schema.family.performAll? ↑(Schema.family.objects.filter e.holds)
        (Schema.family.dropPlanFor e ++ Schema.family.createPlan) =
          some ↑Schema.family.objects := by
  intro e style script
  have h : style.recreateScript .family e = .ok script := by decide +kernel
  obtain ⟨-, -, -, -, -, -, -, -, -, -, hrebuilt, -⟩ := recreateScript_rebuilds h
  exact ⟨h, hrebuilt⟩

end ScriptStyle

end ShardKeys
