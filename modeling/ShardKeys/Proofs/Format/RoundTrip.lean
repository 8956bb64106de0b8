import ShardKeys.Format.Live
import ShardKeys.Format.Sequences
import ShardKeys.Format.Tables
import ShardKeys.Proofs.Exclusion.RoundTrip
import ShardKeys.Proofs.Json.Abridging

/-! # The parts of a snapshot are read back

Every part of a snapshot is written as a word, a text, a list, a map or a record. For a record it is
enough to name its members and which of them have a default; the laws of the others are those of
what they are made of.
-/

namespace ShardKeys

open Json Abridging LawfulAbridging

/-! ## Words and texts -/

instance : Abridging Surface := .exact Surface

instance : LawfulAbridging Surface :=
  .exact (fun s => .string s.word) fun s => by cases s <;> decide

instance : Abridging ScriptMode := .exact ScriptMode

instance : LawfulAbridging ScriptMode :=
  .exact (fun m => .string m.word) fun m => by cases m <;> decide

instance : Abridging ExclusionSet := .exact ExclusionSet

instance : LawfulAbridging ExclusionSet :=
  .exact (fun s => .string s.text) fun s => by
    have htext : Format.ofJson? (Format.toJson s.text) = some s.text := ofJson?_form rfl
    change (Format.ofJson? (Format.toJson s.text)).bind _ = some s
    rw [htext, Option.bind_some, s.parse_text]
    rfl

/-! ## Sets and maps -/

instance : Abridging NameSet := .exact NameSet

instance : LawfulAbridging NameSet :=
  .exact (fun s => LawfulAbridging.plain (form_toJson s.toList)) fun s => by
    have hlist : Format.ofJson? (Format.toJson s.toList) = some s.toList :=
      ofJson?_form (form_toJson _)
    change (Format.ofJson? (Format.toJson s.toList)).map NameSet.ofList = some s
    rw [hlist, Option.map_some, NameSet.ofList_toList]

/-- A map has the form of its entries, each under its name. -/
instance {α : Type} [Abridging α] : Abridging (NameMap α) where
  Form m v := ∃ members, v = .ofMembers members ∧
    List.Forall₂ (fun e member => member.1 = e.1 ∧ Form e.2 member.2) m.entries members

instance {α : Type} [Format α] [Abridging α] [LawfulAbridging α] : LawfulAbridging (NameMap α) where
  form_toJson m := ⟨_, rfl, by simp [List.forall₂_map_right_iff, List.forall₂_same, form_toJson]⟩
  plain := by
    rintro m v ⟨members, rfl, h⟩
    exact .object (forall_mem_of_forall₂ h fun _ _ hform => LawfulAbridging.plain hform.2)
  ofJson?_form := by
    rintro m v ⟨members, rfl, h⟩
    have hentries : (members.map fun e => (Json.Text.ofString e.1, e.2)).mapM NameMap.entryOf? =
        some m.entries := by
      refine mapM_eq_some_of_forall₂ ?_
      rw [List.forall₂_map_right_iff]
      refine h.imp fun e member hform => ?_
      simp [NameMap.entryOf?, hform.1, ofJson?_form hform.2]
    simp [Format.ofJson?, Value.ofMembers, hentries]

/-! ## Records -/

instance : Membered Column where
  members c :=
    [.required "name" c.name, .required "sqlType" c.type, .optional "nullable" true c.nullable]

instance : LawfulAbridging Column :=
  .ofRecord (fun _ => rfl) fun c r _ h => by
    simp only [Membered.members, List.forall_mem_cons, Member.found_required,
      Member.found_optional] at h
    simp [h]

instance : Membered Index where
  members i :=
    [.required "name" i.name, .required "columns" i.columns, .optional "unique" false i.unique]

instance : LawfulAbridging Index :=
  .ofRecord (fun _ => rfl) fun i r _ h => by
    simp only [Membered.members, List.forall_mem_cons, Member.found_required,
      Member.found_optional] at h
    simp [h]

instance : Membered ForeignKey where
  members f :=
    [.required "name" f.name, .required "columns" f.columns, .required "referencedTable" f.table,
      .required "referencedColumns" f.references]

instance : LawfulAbridging ForeignKey :=
  .ofRecord (fun _ => rfl) fun f r _ h => by
    simp only [Membered.members, List.forall_mem_cons, Member.found_required] at h
    simp [h]

instance : Membered Interleave where
  members i := [.required "parent" i.parent, .optional "onDeleteCascade" false i.cascade]

instance : LawfulAbridging Interleave :=
  .ofRecord (fun _ => rfl) fun i r _ h => by
    simp only [Membered.members, List.forall_mem_cons, Member.found_required,
      Member.found_optional] at h
    simp [h]

instance : NeverNull Interleave := ⟨rfl⟩

instance : Membered Table where
  members t :=
    [.required "name" t.name, .optional "columns" [] t.columns, .optional "primaryKey" [] t.key,
      .optional "interleave" none t.interleave, .optional "indexes" [] t.indexes,
      .optional "foreignKeys" [] t.foreignKeys]

instance : LawfulAbridging Table :=
  .ofRecord (fun _ => rfl) fun t r _ h => by
    simp only [Membered.members, List.forall_mem_cons, Member.found_required,
      Member.found_optional] at h
    simp [h]

instance : Membered LiveTable where
  members t :=
    [.optional "columns" .empty t.columns, .optional "primaryKey" none t.key,
      .optional "indexes" .empty t.indexes, .optional "foreignKeys" .empty t.foreignKeys]

instance : LawfulAbridging LiveTable :=
  .ofRecord (fun _ => rfl) fun t r _ h => by
    simp only [Membered.members, List.forall_mem_cons, Member.found_optional] at h
    simp [h]

instance : Membered LiveSchema where
  members e := [.optional "tables" .empty e.tables, .optional "sequences" .empty e.sequences]

instance : LawfulAbridging LiveSchema :=
  .ofRecord (fun _ => rfl) fun e r _ h => by
    simp only [Membered.members, List.forall_mem_cons, Member.found_optional] at h
    simp [h]

instance : Membered Declaration where
  members d :=
    [.optional "sequenceName" "" d.name, .optional "schema" "" d.schema,
      .optional "startWithCounter" 1 d.start, .optional "poolSize" 50 d.poolSize,
      .optional "excludeRange" "" d.excluded]

instance : LawfulAbridging Declaration :=
  .ofRecord (fun _ => rfl) fun d r _ h => by
    simp only [Membered.members, List.forall_mem_cons, Member.found_optional] at h
    simp [h]

instance : Membered Bounds where
  members b := [.required "from" b.lower, .required "to" b.upper]

instance : LawfulAbridging Bounds :=
  .ofRecord (fun _ => rfl) fun b r _ h => by
    simp only [Membered.members, List.forall_mem_cons, Member.found_required] at h
    simp [h]

instance : Membered SequenceName where
  members n := [.optional "schema" none n.schema, .required "name" n.name]

/-- The schema has its default only where members are given by name. -/
instance : LawfulAbridging SequenceName :=
  .ofRecord (fun _ => rfl) fun n r hnamed h => by
    simp only [Membered.members, List.forall_mem_cons, Member.found_required,
      Member.found_optional] at h
    simp [hnamed, h]

/-! ## The format as a whole -/

end ShardKeys
