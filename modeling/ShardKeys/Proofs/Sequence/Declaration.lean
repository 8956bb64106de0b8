import ShardKeys.Proofs.Exclusion.RoundTrip
import ShardKeys.Proofs.Sequence.Naming
import ShardKeys.Sequence.Declaration

/-! # Declaring a sequence again

A sequence is described part by part in a declaration of its own. Every part but the name is read
back from it as it was. The name is read as text again, so a dot in it is taken for the end of
another schema.
-/

namespace ShardKeys

variable {d : Declaration} {s t : Sequence}

namespace Declaration

theorem validate_eq_ok_iff :
    d.validate = .ok s ↔
      SequenceName.ofText d.name (some d.schema) = .ok s.name ∧
      (s.start.toNat : Int) = d.start.toInt ∧
        (s.poolSize.toNat : Int) = d.poolSize.toInt ∧
        ExclusionSet.parse d.excluded = .ok s.excluded := by
  constructor
  · intro h
    unfold validate at h
    split at h
    · simp at h
    split_ifs at h with hs hp hm
    split at h
    · simp at h
    next name hname _ excluded hexcluded =>
      injection h with h
      subst h
      have hstart := d.start.toInt_lt
      simp only [ConfigurationFault.maxPoolSize, UInt32.size] at hm
      refine ⟨hname, ?start, ?pool, hexcluded⟩
      case start => simp only [UInt64.toNat_ofNat']; omega
      case pool => simp only [UInt32.toNat_ofNat']; omega
  · rintro ⟨hname, hstart, hpool, hexcluded⟩
    have hs : ¬d.start.toInt ≤ 0 := by have := s.start_pos; omega
    have hp : ¬d.poolSize.toInt ≤ 0 := by have := s.poolSize_pos; omega
    have hm : ¬(ConfigurationFault.maxPoolSize < d.poolSize.toInt) := by
      have := s.poolSize.toNat_lt
      simp only [ConfigurationFault.maxPoolSize, UInt32.size]
      omega
    unfold validate
    simp only [hname, hs, hp, hm, hexcluded, dite_false]
    cases s
    simp [← hstart, ← hpool]

end Declaration

namespace Sequence

/-- A declaration of a sequence gives it back with the name that the name's text now stands for. -/
theorem validate_declaration_eq_ok_iff :
    s.declaration.validate = .ok t ↔
      SequenceName.ofText s.name.name (some (s.name.schema.getD "")) = .ok t.name ∧
        t = { s with name := t.name } := by
  have hstart : (Int64.ofInt s.start.toNat).toInt = s.start.toNat := by
    have := s.start_lt
    rw [Int64.toInt_ofInt_of_le] <;> omega
  have hpool : (Int64.ofInt s.poolSize.toNat).toInt = s.poolSize.toNat := by
    have := s.poolSize.toNat_lt
    rw [Int64.toInt_ofInt_of_le] <;> omega
  rw [Declaration.validate_eq_ok_iff]
  simp only [declaration, hstart, hpool, ExclusionSet.parse_text, Int.ofNat_inj, UInt64.toNat_inj,
    UInt32.toNat_inj, Except.ok.injEq]
  refine and_congr_right fun _ => ?_
  cases s
  cases t
  simp [eq_comm]

/-- A sequence is described by its own declaration just if it was declared with one dot at most.
Whatever else the declaration describes differs from it in the name alone. -/
theorem validate_declaration (h : d.validate = .ok s) :
    (s.declaration.validate = .ok s ↔ d.name.toList.count '.' ≤ 1) ∧
      ∀ t, s.declaration.validate = .ok t → t = { s with name := t.name } := by
  obtain ⟨hname, -, -, -⟩ := Declaration.validate_eq_ok_iff.mp h
  have hproper := SequenceName.proper_of_ofText hname
  have hcount := SequenceName.count_dot_of_ofText hname
  refine ⟨?_, fun t ht => (validate_declaration_eq_ok_iff.mp ht).2⟩
  calc
    s.declaration.validate = .ok s ↔
        SequenceName.ofText s.name.name (some (s.name.schema.getD "")) = .ok s.name := by
      simp [validate_declaration_eq_ok_iff]
    _ ↔ '.' ∉ s.name.name.toList := SequenceName.ofText_name_iff hproper
    _ ↔ d.name.toList.count '.' ≤ 1 := by
      rw [← List.count_eq_zero]
      omega

/-- Blanks and a schema that is not needed are gone from the declaration of a sequence. -/
theorem validate_declaration_invoices :
    let d : Declaration :=
      { name := " billing . invoices", schema := "public", start := 100, excluded := "[ 3, 09 ]" }
    ∃ s : Sequence, d.validate = .ok s ∧
      s.declaration =
        { name := "invoices", schema := "billing", start := 100, excluded := "[3,9]" } ∧
      s.declaration.validate = .ok s := by
  intro d
  let s : Sequence :=
    { name := ⟨some "billing", "invoices"⟩
      start := 100
      poolSize := 50
      excluded := .ofIntervals [⟨⟨3, 9⟩, by decide⟩]
      start_pos := by decide
      start_lt := by decide
      poolSize_pos := by decide }
  have h : d.validate = .ok s := by decide +kernel
  have hdots : d.name.toList.count '.' ≤ 1 := by decide
  exact ⟨s, h, by decide +kernel, (validate_declaration h).1.mpr hdots⟩

/-- A second dot moves the schema to what was the head of the name. -/
theorem validate_declaration_archive :
    let d : Declaration := { name := "billing.invoices.archive" }
    ∃ s : Sequence, d.validate = .ok s ∧ s.name = ⟨some "billing", "invoices.archive"⟩ ∧
      s.declaration.validate = .ok { s with name := ⟨some "invoices", "archive"⟩ } ∧
      s.declaration.validate ≠ .ok s := by
  intro d
  let s : Sequence :=
    { name := ⟨some "billing", "invoices.archive"⟩
      start := 1
      poolSize := 50
      excluded := .ofIntervals []
      start_pos := by decide
      start_lt := by decide
      poolSize_pos := by decide }
  exact ⟨s, by decide +kernel⟩

end Sequence

end ShardKeys
