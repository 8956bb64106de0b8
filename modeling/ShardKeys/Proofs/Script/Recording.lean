import ShardKeys.Proofs.Script.Update
import ShardKeys.Proofs.Sequence.Declaration

/-! # Recording a sequence

A live schema knows sequences by the texts of their names. What is recorded under a text counts for
every sequence whose name has that text: an update does not create it, a removal drops it, and
nothing else changes.
-/

namespace ShardKeys

/-- Whether an object is a sequence whose name has this text. -/
def SchemaObject.isSequenceOf (text : String) : SchemaObject → Bool
  | .sequence s => s.name.text == text
  | .table _ | .index _ _ | .foreignKey _ _ => false

/-- Whether a change creates a sequence whose name has this text. -/
def Change.createsSequence (text : String) : Change → Bool
  | .create o => o.isSequenceOf text
  | .addColumn _ _ | .drop _ => false

variable {style : ScriptStyle} {d : Dialect} {g : Schema} {e : LiveSchema} {o : SchemaObject}
  {text : String}

theorem LiveSchema.holds_withSequence :
    (e.withSequence text).holds o = (o.isSequenceOf text || e.holds o) := by
  cases o with
  | sequence s => exact hasSequence_withSequence ..
  | table _ | index _ _ | foreignKey _ _ => rfl

/-! ## Plans -/

namespace Schema

theorem not_createsSequence_of_updatesOf {t : Table} {changes : List Change}
    (h : g.updatesOf d e (.table t) = .ok changes) :
    ∀ change ∈ changes, !change.createsSequence text := by
  rcases updatesOf_cases h with ⟨-, rfl⟩ | ⟨u, -, -, -, rfl⟩ | ⟨-, hne, -⟩
  · simp [Change.createsSequence, SchemaObject.isSequenceOf]
  · simp [Change.createsSequence]
  · exact absurd rfl (hne t)

theorem updatesOf_withSequence :
    g.updatesOf d (e.withSequence text) o =
      (g.updatesOf d e o).map (List.filter fun change => !change.createsSequence text) := by
  by_cases ho : ∃ t, o = .table t
  · obtain ⟨t, rfl⟩ := ho
    have hsame : g.updatesOf d (e.withSequence text) (.table t) = g.updatesOf d e (.table t) := rfl
    rw [hsame]
    cases h : g.updatesOf d e (.table t) with
    | error fault => rfl
    | ok changes => rw [Except.map, List.filter_eq_self.mpr (not_createsSequence_of_updatesOf h)]
  · have hne : ∀ t, o ≠ .table t := fun t ht => ho ⟨t, ht⟩
    rw [updatesOf_of_ne_table hne, updatesOf_of_ne_table hne, LiveSchema.holds_withSequence]
    cases hrecorded : o.isSequenceOf text <;> cases e.holds o <;>
      simp [Except.map, Change.createsSequence, hrecorded]

/-- Recording a sequence takes its creation from the plan and leaves the rest of it as it was. -/
theorem updatePlan_withSequence :
    g.updatePlan d (e.withSequence text) =
      (g.updatePlan d e).map (List.filter fun change => !change.createsSequence text) := by
  have hupdates : g.updatesOf d (e.withSequence text) = fun o =>
      (g.updatesOf d e o).map (List.filter fun change => !change.createsSequence text) :=
    funext fun _ => updatesOf_withSequence
  rw [updatePlan, updatePlan, hupdates, mapM_map_eq]
  cases g.creationOrder.mapM (g.updatesOf d e) with
  | error fault => rfl
  | ok plans => simp [Except.map, List.filter_flatten]

theorem drop_mem_dropPlanFor_iff : .drop o ∈ g.dropPlanFor e ↔ o ∈ g.objects ∧ e.holds o := by
  simp [dropPlanFor, removalOrder, g.creationOrder_perm.mem_iff]

end Schema

/-! ## Scripts -/

namespace Dialect

theorem exists_statements_iff {plan : List Change} :
    (∃ statements, d.statements g plan = .ok statements) ↔
      ∀ change ∈ plan, ∃ statement, d.statement g change = .ok statement :=
  exists_mapM_eq_ok_iff

theorem exists_statement_of_createsSequence {change : Change} (h : change.createsSequence text) :
    ∃ statement, d.statement g change = .ok statement := by
  cases change with
  | create o =>
      cases o with
      | sequence s => exact ⟨_, rfl⟩
      | table _ | index _ _ | foreignKey _ _ =>
          simp [Change.createsSequence, SchemaObject.isSequenceOf] at h
  | addColumn _ _ | drop _ => simp [Change.createsSequence] at h

end Dialect

namespace ScriptStyle

/-- There is an update script, and the plan that it carries out creates the object. -/
def UpdateCreates (style : ScriptStyle) (g : Schema) (e : LiveSchema) (o : SchemaObject) : Prop :=
  ∃ plan statements, g.updatePlan style.dialect e = .ok plan ∧
    style.dialect.statements g plan = .ok statements ∧
    style.updateScript g e = .ok (style.frame .update statements) ∧ .create o ∈ plan

/-- There is a script that drops what exists, and the plan that it carries out drops the object. -/
def RemovalDrops (style : ScriptStyle) (g : Schema) (e : LiveSchema) (o : SchemaObject) : Prop :=
  ∃ statements, style.dialect.statements g (g.dropPlanFor e) = .ok statements ∧
    style.dropScriptFor g e = .ok (style.frame .drop statements) ∧ .drop o ∈ g.dropPlanFor e

theorem updateCreates_iff :
    style.UpdateCreates g e o ↔ ∃ plan, g.updatePlan style.dialect e = .ok plan ∧
      (∀ change ∈ plan, ∃ statement, style.dialect.statement g change = .ok statement) ∧
      .create o ∈ plan := by
  constructor
  · rintro ⟨plan, statements, hplan, hstatements, -, hcreate⟩
    exact ⟨plan, hplan, Dialect.exists_statements_iff.mp ⟨statements, hstatements⟩, hcreate⟩
  · rintro ⟨plan, hplan, hchanges, hcreate⟩
    obtain ⟨statements, hstatements⟩ := Dialect.exists_statements_iff.mpr hchanges
    have hscript : style.planScript g .update plan = .ok (style.frame .update statements) :=
      planScript_eq_ok_iff.mpr ⟨statements, hstatements, rfl⟩
    exact ⟨plan, statements, hplan, hstatements, bind_eq_ok_iff.mpr ⟨plan, hplan, hscript⟩, hcreate⟩

theorem removalDrops_iff : style.RemovalDrops g e o ↔ o ∈ g.objects ∧ e.holds o := by
  rw [← Schema.drop_mem_dropPlanFor_iff]
  constructor
  · rintro ⟨-, -, -, hdrop⟩
    exact hdrop
  · intro hdrop
    exact ⟨_, style.dialect.statements_drop g _, style.planScript_drop g .drop _, hdrop⟩

/-- An update creates what it did before, but for the sequences that the recorded text names. -/
theorem updateCreates_withSequence :
    style.UpdateCreates g (e.withSequence text) o ↔
      style.UpdateCreates g e o ∧ ¬o.isSequenceOf text := by
  simp only [updateCreates_iff, Schema.updatePlan_withSequence, map_eq_ok_iff]
  constructor
  · rintro ⟨_, ⟨plan, hplan, rfl⟩, hchanges, hcreate⟩
    obtain ⟨hcreate, hother⟩ := List.mem_filter.mp hcreate
    refine ⟨⟨plan, hplan, ?_, hcreate⟩, by simpa [Change.createsSequence] using hother⟩
    intro change hchange
    by_cases hsequence : change.createsSequence text
    · exact Dialect.exists_statement_of_createsSequence hsequence
    · exact hchanges change (List.mem_filter.mpr ⟨hchange, by simpa using hsequence⟩)
  · rintro ⟨⟨plan, hplan, hchanges, hcreate⟩, hother⟩
    refine ⟨_, ⟨plan, hplan, rfl⟩, ?_, ?_⟩
    · exact fun change hchange => hchanges change (List.mem_filter.mp hchange).1
    · exact List.mem_filter.mpr ⟨hcreate, by simpa [Change.createsSequence] using hother⟩

theorem removalDrops_withSequence (ho : o ∈ g.objects) :
    style.RemovalDrops g (e.withSequence text) o ↔
      style.RemovalDrops g e o ∨ o.isSequenceOf text := by
  simp [removalDrops_iff, LiveSchema.holds_withSequence, ho, or_comm]

/-- The text of one sequence's name, once recorded, leaves another sequence alone unless their names
clash. Then the other one is not created and is dropped. -/
theorem recording_confuses_iff_clash {a b : Sequence}
    (hdeclared : ∀ s ∈ g.sequences, ∃ d : Declaration, d.validate = .ok s) (ha : a ∈ g.sequences)
    (hb : b ∈ g.sequences) (hne : a.name ≠ b.name) :
    (style.UpdateCreates g (e.withSequence a.name.text) (.sequence b) ↔
        style.UpdateCreates g e (.sequence b) ∧ ¬a.name.Clash b.name) ∧
      (style.RemovalDrops g (e.withSequence a.name.text) (.sequence b) ↔
        style.RemovalDrops g e (.sequence b) ∨ a.name.Clash b.name) := by
  have hproper : ∀ s ∈ g.sequences, s.name.Proper := by
    intro s hs
    obtain ⟨d, hd⟩ := hdeclared s hs
    exact SequenceName.proper_of_ofText (Declaration.validate_eq_ok_iff.mp hd).1
  have hobject : .sequence b ∈ g.objects := List.mem_append_left _ (List.mem_map_of_mem hb)
  have hclash : SchemaObject.isSequenceOf a.name.text (.sequence b) ↔ a.name.Clash b.name := by
    rw [SchemaObject.isSequenceOf, beq_iff_eq, eq_comm,
      (hproper a ha).text_eq_text_iff (hproper b hb)]
    exact or_iff_right hne
  rw [updateCreates_withSequence, removalDrops_withSequence hobject, hclash]
  exact ⟨.rfl, .rfl⟩

end ScriptStyle

/-- A sequence that starts at a thousand, with the default pool size and nothing excluded. -/
def Sequence.fromThousand (name : SequenceName) : Sequence where
  name
  start := 1000
  poolSize := 50
  excluded := .empty
  start_pos := by decide
  start_lt := by decide
  poolSize_pos := by decide

/-- Some sequences and no tables. -/
def Schema.ofNames (names : List SequenceName) (h : names.Nodup) : Schema where
  tables := []
  faultless := by decide +kernel
  sequences := names.map .fromThousand
  distinct := by simpa [Sequence.fromThousand, Function.comp_def] using h

namespace ScriptStyle

/-- The tickets are created as before once the invoices are recorded, and still not dropped. -/
theorem recording_confuses_iff_clash_tickets :
    let invoices : SequenceName := ⟨some "billing", "invoices"⟩
    let tickets : SequenceName := ⟨none, "tickets"⟩
    let g := Schema.ofNames [invoices, tickets] (by decide)
    let e := LiveSchema.withSequence {} "billing.invoices"
    UpdateCreates {} g e (.sequence (.fromThousand tickets)) ∧
      ¬RemovalDrops {} g e (.sequence (.fromThousand tickets)) := by
  intro invoices tickets g e
  have hdeclared : ∀ s ∈ g.sequences, ∃ d : Declaration, d.validate = .ok s := by
    intro s hs
    rcases List.mem_pair.mp hs with rfl | rfl
    · exact ⟨{ name := "billing.invoices", start := 1000 }, by decide +kernel⟩
    · exact ⟨{ name := "tickets", start := 1000 }, by decide +kernel⟩
  have hclash : ¬invoices.Clash tickets := by
    rintro (⟨_, _, _, -, h⟩ | ⟨_, _, _, h, -⟩) <;> simp [tickets] at h
  have hcreates : UpdateCreates {} g {} (.sequence (.fromThousand tickets)) :=
    ⟨g.createPlan, _, by decide +kernel, rfl, by decide +kernel, by decide +kernel⟩
  have hdrops : ¬RemovalDrops {} g {} (.sequence (.fromThousand tickets)) := by
    rw [removalDrops_iff]
    decide +kernel
  obtain ⟨hcreate, hdrop⟩ := @recording_confuses_iff_clash {} g {} (.fromThousand invoices)
    (.fromThousand tickets) hdeclared (by decide +kernel) (by decide +kernel) (by decide)
  exact ⟨hcreate.mpr ⟨hcreates, hclash⟩, fun h => (hdrop.mp h).elim hdrops hclash⟩

/-- Two sequences are declared, and none is created once the text that their names share is recorded
for one. -/
theorem recording_confuses_invoices :
    let european : SequenceName := ⟨some "billing.eu", "invoices"⟩
    let invoices : SequenceName := ⟨some "billing", "eu.invoices"⟩
    let g := Schema.ofNames [european, invoices] (by decide)
    let e := LiveSchema.withSequence {} european.text
    european ≠ invoices ∧
      (∀ s ∈ g.sequences, ∃ d : Declaration, d.validate = .ok s) ∧
      (updateScript {} g {}).map (·.lines) = .ok [
        "START BATCH DDL",
        "create sequence \x60billing.eu\x60.invoices options(sequence_kind=\"bit_reversed_positive\", "
          ++ "start_with_counter=1000)",
        "create sequence billing.\x60eu.invoices\x60 options(sequence_kind=\"bit_reversed_positive\", "
          ++ "start_with_counter=1000)",
        "RUN BATCH"] ∧
      (updateScript {} g e).map (·.lines) = .ok [] ∧
      UpdateCreates {} g {} (.sequence (.fromThousand invoices)) ∧
      ¬UpdateCreates {} g e (.sequence (.fromThousand invoices)) ∧
      ¬RemovalDrops {} g {} (.sequence (.fromThousand invoices)) ∧
      RemovalDrops {} g e (.sequence (.fromThousand invoices)) := by
  intro european invoices g e
  refine ⟨by decide, ?declared, by decide +kernel, by decide +kernel, ?created, ?confused, ?kept,
    ?dropped⟩
  case declared =>
    intro s hs
    rcases List.mem_pair.mp hs with rfl | rfl
    · exact ⟨{ name := "invoices", schema := "billing.eu", start := 1000 }, by decide +kernel⟩
    · exact ⟨{ name := "billing.eu.invoices", start := 1000 }, by decide +kernel⟩
  case created =>
    exact ⟨g.createPlan, _, by decide +kernel, rfl, by decide +kernel, by decide +kernel⟩
  case confused =>
    rw [updateCreates_withSequence]
    exact fun h => h.2 (by decide)
  case kept =>
    rw [removalDrops_iff]
    decide +kernel
  case dropped =>
    rw [removalDrops_iff]
    decide +kernel

end ScriptStyle

end ShardKeys
