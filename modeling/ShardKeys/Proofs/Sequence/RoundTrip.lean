import ShardKeys.Proofs.Sequence.Naming

/-! # Reading the texts of names

The text of a name has no blanks at its ends. Where the schema has no dot, the first dot of the text
is the one behind the schema, so the name is read from its text again.
-/

namespace ShardKeys.SequenceName

variable {written : String} {schema other : Option String} {n : SequenceName}

theorem Proper.strip_text (h : n.Proper) : Text.strip n.text.toList = n.text.toList := by
  have hname : Text.strip n.name.toList = n.name.toList := by
    rw [← Text.toList_trim, h.name_trimmed]
  cases hs : n.schema with
  | none => simpa [text, hs] using hname
  | some outer =>
      have houter : Text.strip outer.toList = outer.toList := by
        rw [← Text.toList_trim, h.schema_trimmed outer hs]
      have hstart : outer.toList ≠ [] := by simpa using h.schema_nonempty outer hs
      have hend : n.name.toList ≠ [] := by simpa using h.name_nonempty
      have htrimmed : Text.strip (outer.toList ++ ['.'] ++ n.name.toList) =
          outer.toList ++ ['.'] ++ n.name.toList :=
        Text.strip_between_trimmed houter hname hstart hend
      simpa [text, hs] using htrimmed

/-- A name with a schema is read from its text, whatever schema is given, just if the schema has no
dot. -/
theorem Proper.ofText_text_iff_of_schema (h : n.Proper) {outer : String}
    (hs : n.schema = some outer) :
    ofText n.text other = .ok n ↔ '.' ∉ outer.toList := by
  have htext : n.text.toList = outer.toList ++ '.' :: n.name.toList := by simp [text, hs]
  constructor
  · intro hread
    have hcount := count_dot_of_ofText hread
    rw [htext, List.count_append, List.count_cons_self] at hcount
    exact List.count_eq_zero.mp (by omega)
  · intro hfirst
    have htrimmed := h.schema_trimmed outer hs
    have hnonempty := h.schema_nonempty outer hs
    have hne : Text.strip outer.toList ≠ [] := by
      rwa [Ne, ← Text.trim_eq_empty_iff, htrimmed]
    rw [ofText_of_dotted (h.strip_text.trans htext) hfirst hne, ofParts_eq_ok_iff,
      String.ofList_toList,
      String.ofList_toList, h.name_trimmed, Option.bind_some,
      schema?_eq_some_iff.mpr ⟨htrimmed, hnonempty⟩, ← hs]
    exact ⟨h.name_nonempty, rfl⟩

theorem Proper.ofText_text_iff_of_bare (h : n.Proper) (hs : n.schema = none) :
    ofText n.text other = .ok n ↔ other.bind schema? = none := by
  have htext : n.text = n.name := by simp [text, hs]
  rw [htext, ofText_of_undotted (h.undotted hs), ofParts_eq_ok_iff, h.name_trimmed]
  constructor
  · rintro ⟨-, hn⟩
    rw [hn] at hs
    exact hs
  · intro hother
    refine ⟨h.name_nonempty, ?_⟩
    rw [hother, ← hs]

/-- The schema of a name comes from before the first dot of a text, or else from the schema that was
given. -/
theorem schema_undotted_of_ofText (h : ofText written schema = .ok n)
    (hgiven : ∀ s ∈ schema, (∀ c ∈ s.toList, Text.isBlank c) ∨ '.' ∉ s.toList) :
    ∀ outer ∈ n.schema, '.' ∉ outer.toList := by
  intro outer houter
  rw [Option.mem_def] at houter
  have hundotted : ∀ s, schema? s = some outer → '.' ∉ s.toList → '.' ∉ outer.toList := by
    intro s hs hdot
    obtain ⟨rfl, -⟩ := schema?_eq_some_iff.mp hs
    rwa [Text.toList_trim, Text.mem_strip_iff not_isBlank_dot]
  rcases ofText_cases h with ⟨-, h⟩ | ⟨front, inner, -, hfirst, -, h⟩
  · obtain ⟨-, rfl⟩ := ofParts_eq_ok_iff.mp h
    obtain ⟨s, hs, houter⟩ := Option.bind_eq_some_iff.mp houter
    refine hundotted s houter ((hgiven s hs).resolve_left fun hblank => ?_)
    obtain ⟨rfl, hne⟩ := schema?_eq_some_iff.mp houter
    exact hne (Text.trim_eq_empty_iff.mpr (Text.strip_eq_nil_iff.mpr hblank))
  · obtain ⟨-, hn⟩ := ofParts_eq_ok_iff.mp h
    simp only [hn, Option.bind_some] at houter
    exact hundotted (String.ofList front) houter (by simpa using hfirst)

/-- A name that was made from a text is made from its own text again. If it has a schema, it makes
no difference which schema is given then. The schema that was given at first may be absent or blank,
but it must not have a dot. -/
theorem ofText_text (h : ofText written schema = .ok n)
    (hgiven : ∀ s ∈ schema, (∀ c ∈ s.toList, Text.isBlank c) ∨ '.' ∉ s.toList) :
    ofText n.text none = .ok n ∧ (n.schema.isSome → ∀ other, ofText n.text other = .ok n) := by
  have hproper := proper_of_ofText h
  have hundotted := schema_undotted_of_ofText h hgiven
  cases hs : n.schema with
  | none => exact ⟨(hproper.ofText_text_iff_of_bare hs).mpr rfl, by simp⟩
  | some outer =>
      have hread (other) : ofText n.text other = .ok n :=
        (hproper.ofText_text_iff_of_schema hs).mpr (hundotted outer hs)
      exact ⟨hread none, fun _ => hread⟩

/-- Blanks around the parts, a second dot, and a schema that is not needed. -/
theorem ofText_text_archive :
    let n : SequenceName := ⟨some "billing", "invoices.archive"⟩
    ofText " billing . invoices.archive" (some "public") = .ok n ∧
    n.text = "billing.invoices.archive" ∧
      ofText "billing.invoices.archive" none = .ok n ∧
      ∀ other, ofText "billing.invoices.archive" other = .ok n := by
  intro n
  have hread : ofText " billing . invoices.archive" (some "public") = .ok n := by decide +kernel
  have hgiven : ∀ s ∈ some "public", (∀ c ∈ s.toList, Text.isBlank c) ∨ '.' ∉ s.toList := by
    intro s hs
    obtain rfl := Option.some.inj hs
    exact .inr (by decide)
  have htext : n.text = "billing.invoices.archive" := by decide +kernel
  have hagain := ofText_text hread hgiven
  rw [htext] at hagain
  exact ⟨hread, htext, hagain.1, hagain.2 rfl⟩

/-- A schema with a dot that was given to a name is taken apart in the name's text. -/
example : ofText "invoices" (some "billing.eu") = .ok ⟨some "billing.eu", "invoices"⟩ ∧
    ofText "billing.eu.invoices" none = .ok ⟨some "billing", "eu.invoices"⟩ := by decide +kernel

end ShardKeys.SequenceName
