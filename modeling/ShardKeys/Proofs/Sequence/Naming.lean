import ShardKeys.Proofs.Text.Trimming
import ShardKeys.Sequence.Naming

/-! # Names and their texts

A name made from a text has trimmed parts that are not empty, and without a schema it has no dot.
The text of a name does not tell where its schema ends: two names are written alike if one has in
its schema what the other has in its name.
-/

namespace ShardKeys

namespace SequenceName

/-- What holds of every name that is made from a text. -/
structure Proper (n : SequenceName) : Prop where
  name_trimmed : Text.trim n.name = n.name
  name_nonempty : n.name ≠ ""
  schema_trimmed : ∀ schema ∈ n.schema, Text.trim schema = schema
  schema_nonempty : ∀ schema ∈ n.schema, schema ≠ ""
  undotted : n.schema = none → '.' ∉ n.name.toList

/-- The second name has in its schema what the first has in its name, behind the schema that they
share. -/
def Overlap (a b : SequenceName) : Prop :=
  ∃ outer middle inner : String,
    a = ⟨some outer, middle ++ "." ++ inner⟩ ∧ b = ⟨some (outer ++ "." ++ middle), inner⟩

/-- One of the names overlaps the other. -/
def Clash (a b : SequenceName) : Prop :=
  a.Overlap b ∨ b.Overlap a

variable {written name : String} {schema : Option String} {n a b : SequenceName}

/-! ## Making names -/

theorem not_isBlank_dot : ¬Text.isBlank '.' := by decide

theorem schema?_eq_some_iff {s t : String} : schema? s = some t ↔ Text.trim s = t ∧ t ≠ "" := by
  simp only [schema?, String.isEmpty_iff]
  split
  · next h => grind
  · next h => grind

theorem ofParts_eq_ok_iff :
    ofParts schema name = .ok n ↔
      Text.trim name ≠ "" ∧ n = ⟨schema.bind schema?, Text.trim name⟩ := by
  simp only [ofParts, String.isEmpty_iff]
  split
  · next h => simp [h]
  · next h => simp [h, eq_comm]

theorem ofText_of_undotted (h : '.' ∉ written.toList) :
    ofText written schema = ofParts schema written := by
  have hcut : Text.cut? '.' (Text.strip written.toList) = none :=
    Text.cut?_eq_none_iff.mpr (by rwa [Text.mem_strip_iff not_isBlank_dot])
  rw [ofText, hcut]

theorem ofText_of_dotted {outer inner : List Char}
    (hstrip : Text.strip written.toList = outer ++ '.' :: inner)
    (hfirst : '.' ∉ outer) (hne : Text.strip outer ≠ []) :
    ofText written schema = ofParts (some (String.ofList outer)) (String.ofList inner) := by
  rw [ofText, hstrip, Text.cut?_append inner hfirst]
  simp [hne]

/-- A text without a dot takes the schema it is given. Otherwise the schema ends at the first
dot. -/
theorem ofText_cases (h : ofText written schema = .ok n) :
    ('.' ∉ written.toList ∧ ofParts schema written = .ok n) ∨
      ∃ outer inner, Text.strip written.toList = outer ++ '.' :: inner ∧ '.' ∉ outer ∧
        Text.strip outer ≠ [] ∧
        ofParts (some (String.ofList outer)) (String.ofList inner) = .ok n := by
  by_cases hdot : '.' ∈ written.toList
  · unfold ofText at h
    split at h
    · next outer inner hcut =>
        obtain ⟨hstrip, hfirst⟩ := Text.cut?_eq_some_iff.mp hcut
        split at h
        · simp at h
        · next hne => exact .inr ⟨outer, inner, hstrip, hfirst, by simpa using hne, h⟩
    · next hcut =>
        rw [Text.cut?_eq_none_iff, Text.mem_strip_iff not_isBlank_dot] at hcut
        exact absurd hdot hcut
  · exact .inl ⟨hdot, by rwa [ofText_of_undotted hdot] at h⟩

theorem proper_of_ofParts (h : ofParts schema name = .ok n)
    (hdot : n.schema = none → '.' ∉ name.toList) : n.Proper := by
  obtain ⟨hne, rfl⟩ := ofParts_eq_ok_iff.mp h
  have hschema : ∀ s, schema.bind schema? = some s → Text.trim s = s ∧ s ≠ "" := by
    intro s hs
    obtain ⟨t, -, ht⟩ := Option.bind_eq_some_iff.mp hs
    obtain ⟨rfl, hnonempty⟩ := schema?_eq_some_iff.mp ht
    exact ⟨Text.trim_trim t, hnonempty⟩
  refine ⟨Text.trim_trim name, hne, fun s hs => (hschema s hs).1, fun s hs => (hschema s hs).2,
    ?undotted⟩
  case undotted =>
    intro hnone
    rw [Text.toList_trim, Text.mem_strip_iff not_isBlank_dot]
    exact hdot hnone

theorem proper_of_ofText (h : ofText written schema = .ok n) : n.Proper := by
  rcases ofText_cases h with ⟨hdot, h⟩ | ⟨outer, inner, -, -, hne, h⟩
  · exact proper_of_ofParts h fun _ => hdot
  · refine proper_of_ofParts h fun hnone => ?_
    obtain ⟨-, rfl⟩ := ofParts_eq_ok_iff.mp h
    have hschema : schema? (String.ofList outer) = some (Text.trim (String.ofList outer)) :=
      schema?_eq_some_iff.mpr ⟨rfl, by simpa [Text.trim_eq_empty_iff] using hne⟩
    simp [hschema] at hnone

/-- The first dot of a text is not in the name, all others are. -/
theorem count_dot_of_ofText (h : ofText written schema = .ok n) :
    n.name.toList.count '.' = written.toList.count '.' - 1 := by
  rcases ofText_cases h with ⟨hdot, h⟩ | ⟨outer, inner, hstrip, hfirst, -, h⟩
  · obtain ⟨-, rfl⟩ := ofParts_eq_ok_iff.mp h
    rw [Text.toList_trim, Text.count_strip not_isBlank_dot, List.count_eq_zero.mpr hdot]
  · obtain ⟨-, rfl⟩ := ofParts_eq_ok_iff.mp h
    rw [Text.toList_trim, Text.count_strip not_isBlank_dot,
      ← Text.count_strip not_isBlank_dot written.toList, hstrip, List.count_append,
      List.count_eq_zero.mpr hfirst]
    simp

/-- A name is made again from its two parts just if its own part has no dot. -/
theorem ofText_name_iff (h : n.Proper) :
    ofText n.name (some (n.schema.getD "")) = .ok n ↔ '.' ∉ n.name.toList := by
  constructor
  · intro hread
    have hcount := count_dot_of_ofText hread
    exact List.count_eq_zero.mp (by omega)
  · intro hdot
    have hschema : schema? (n.schema.getD "") = n.schema := by
      cases hs : n.schema with
      | none => rfl
      | some s =>
          exact schema?_eq_some_iff.mpr ⟨h.schema_trimmed s hs, h.schema_nonempty s hs⟩
    rw [ofText_of_undotted hdot, ofParts_eq_ok_iff, h.name_trimmed]
    exact ⟨h.name_nonempty, by rw [Option.bind_some, hschema]⟩

/-! ## Writing names -/

theorem Overlap.text_eq (h : a.Overlap b) : a.text = b.text := by
  obtain ⟨outer, middle, inner, rfl, rfl⟩ := h
  simp [text, String.append_assoc]

/-- If one schema is the head of the other, the rest of the longer one is the head of the name that
goes with the shorter one. -/
theorem overlap_of_schema_append {s t x y : String} {rest : List Char}
    (hschema : t.toList = s.toList ++ rest)
    (hname : '.' :: x.toList = rest ++ '.' :: y.toList) :
    (⟨some s, x⟩ : SequenceName) = ⟨some t, y⟩ ∨ Overlap ⟨some s, x⟩ ⟨some t, y⟩ := by
  cases rest with
  | nil =>
      obtain rfl : s = t := by simpa [← String.toList_inj] using hschema.symm
      obtain rfl : x = y := by simpa [← String.toList_inj] using hname
      exact .inl rfl
  | cons c middle =>
      rw [List.cons_append, List.cons.injEq] at hname
      obtain ⟨rfl, hname⟩ := hname
      refine .inr ⟨s, String.ofList middle, y, ?_, ?_⟩
      · simp [← String.toList_inj, hname]
      · simp [← String.toList_inj, hschema]

theorem Proper.dot_mem_text_iff (h : n.Proper) : '.' ∈ n.text.toList ↔ n.schema.isSome := by
  cases hs : n.schema with
  | none => simpa [text, hs] using h.undotted hs
  | some s => simp [text, hs]

/-- Two names that are made from texts are written alike just if they are equal or clash. -/
theorem Proper.text_eq_text_iff (ha : a.Proper) (hb : b.Proper) :
    a.text = b.text ↔ a = b ∨ a.Clash b := by
  constructor
  · intro h
    have hschemas : a.schema.isSome ↔ b.schema.isSome := by
      rw [← ha.dot_mem_text_iff, ← hb.dot_mem_text_iff, h]
    obtain ⟨schemaA, x⟩ := a
    obtain ⟨schemaB, y⟩ := b
    cases schemaA with
    | none =>
        cases schemaB with
        | none => exact .inl (congrArg (SequenceName.mk none) h)
        | some t => simp at hschemas
    | some s =>
        cases schemaB with
        | none => simp at hschemas
        | some t =>
            have hdots : s.toList ++ '.' :: x.toList = t.toList ++ '.' :: y.toList := by
              simpa [text] using congrArg String.toList h
            rcases List.append_eq_append_iff.mp hdots with
              ⟨rest, hschema, hname⟩ | ⟨rest, hschema, hname⟩
            · exact (overlap_of_schema_append hschema hname).imp_right .inl
            · exact (overlap_of_schema_append hschema hname).imp Eq.symm .inr
  · rintro (rfl | h | h)
    · rfl
    · exact h.text_eq
    · exact h.text_eq.symm

end SequenceName

end ShardKeys
