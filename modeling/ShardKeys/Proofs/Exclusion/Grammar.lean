import ShardKeys.Error
import ShardKeys.Proofs.Exclusion.Canonical
import ShardKeys.Proofs.Fallible
import ShardKeys.Proofs.Text.Numeral
import ShardKeys.Proofs.Text.Trimming

/-! # Which texts list ranges

The grammar says where blanks may stand; reading cuts first and trims the pieces afterwards. No
separator and no bracket occurs in a numeral or among blanks, so the pieces are those that the
grammar names.
-/

namespace ShardKeys

open Text

/-- A text of `P` with blanks around it. -/
def Text.Padded (P : List Char → Prop) (cs : List Char) : Prop :=
  ∃ before text after, (∀ c ∈ before, isBlank c) ∧ (∀ c ∈ after, isBlank c) ∧ P text ∧
    cs = before ++ text ++ after

/-- How an interval is written: its bounds in brackets with a comma between them, and blanks around
either bound. -/
def Interval.Bracketed (i : Interval) (cs : List Char) : Prop :=
  ∃ lower upper, cs = '[' :: (lower ++ ',' :: upper) ++ [']'] ∧
    Padded (Numeral · i.lower.toNat) lower ∧ Padded (Numeral · i.upper.toNat) upper

/-- How intervals are listed: with semicolons between them and blanks around each. The list of none
is blank. -/
inductive Listed : List Char → List Interval → Prop where
  | blank {cs : List Char} (blank : ∀ c ∈ cs, isBlank c) : Listed cs []
  | ranges {parts : List (List Char)} {is : List Interval} (nonempty : parts ≠ [])
      (written : List.Forall₂ (fun part i => Padded i.Bracketed part) parts is) :
      Listed ([';'].intercalate parts) is

variable {P : List Char → Prop} {cs inner lower upper part : List Char} {sep : Char} {c : Counter}
  {i : Interval} {is : List Interval} {n : Nat}

/-! ## Blanks -/

theorem Text.padded_iff (h : ∀ text, P text → strip text = text) : Padded P cs ↔ P (strip cs) := by
  constructor
  · rintro ⟨before, text, after, hbefore, hafter, htext, rfl⟩
    rwa [strip_between hbefore hafter, h text htext]
  · intro hstrip
    obtain ⟨before, after, hbefore, hafter, hcs⟩ := exists_strip cs
    exact ⟨before, strip cs, after, hbefore, hafter, hstrip, hcs⟩

theorem Text.not_isBlank_of_isDigit {c : Char} (h : c.isDigit) : ¬isBlank c := by
  have hrange := Char.isDigit_iff_toNat.mp h
  simp only [Char.reduceToNat] at hrange
  simp [isBlank, blankRanges]
  omega

theorem Text.Numeral.not_isBlank (h : Numeral cs n) : ∀ c ∈ cs, ¬isBlank c := by
  intro c hc
  rcases h.mem hc with rfl | hdigit
  · decide
  · exact not_isBlank_of_isDigit hdigit

theorem Text.Numeral.strip_eq (h : Numeral cs n) : strip cs = cs :=
  strip_eq_self (fun c hc => h.not_isBlank c (List.mem_of_head? hc))
    fun c hc => h.not_isBlank c (List.mem_of_getLast? hc)

theorem Interval.Bracketed.strip_eq (h : i.Bracketed cs) : strip cs = cs := by
  obtain ⟨lower, upper, rfl, -, -⟩ := h
  apply strip_eq_self
  · rintro c ⟨⟩
    decide
  · rw [List.getLast?_concat]
    rintro c ⟨⟩
    decide

theorem Text.Padded.notMem (h : Padded P cs) (hblank : ¬isBlank sep)
    (hfree : ∀ text, P text → sep ∉ text) :
    sep ∉ cs := by
  obtain ⟨before, text, after, hbefore, hafter, htext, rfl⟩ := h
  simp only [List.mem_append, not_or]
  exact ⟨⟨fun hmem => hblank (hbefore sep hmem), hfree text htext⟩,
    fun hmem => hblank (hafter sep hmem)⟩

/-- A separator is no part of a numeral, nor of the blanks around it. -/
theorem Text.Numeral.notMem_padded (h : Padded (Numeral · n) cs) (hblank : ¬isBlank sep)
    (hplus : sep ≠ '+')
    (hdigit : ¬sep.isDigit) : sep ∉ cs :=
  h.notMem hblank fun _ htext hmem => (htext.mem hmem).elim hplus hdigit

theorem Interval.Bracketed.semicolon_notMem (h : i.Bracketed cs) : ';' ∉ cs := by
  obtain ⟨lower, upper, rfl, hlower, hupper⟩ := h
  have hsemicolon : ¬isBlank ';' := by decide
  simp [Numeral.notMem_padded hlower hsemicolon, Numeral.notMem_padded hupper hsemicolon]

theorem Text.Numeral.head?_ne_minus (h : Numeral cs n) : cs.head? ≠ some '-' := by
  intro hhead
  rcases h.mem (List.mem_of_head? hhead) with hminus | hminus <;> simp at hminus

/-! ## One range -/

namespace Interval

theorem parseBound_eq_ok_iff : parseBound cs = .ok c ↔ Numeral cs c.toNat := by
  have hread : readUnsigned Counter.last.toNat cs = .ok c.toNat ↔ Numeral cs c.toNat :=
    readUnsigned_eq_ok_iff.trans (and_iff_left (UInt64.le_iff_toNat_le.mp (Counter.le_last c)))
  unfold parseBound
  split
  · next hminus =>
      simp only [reduceCtorEq, false_iff]
      exact fun h => h.head?_ne_minus hminus
  · rw [← hread]
    cases hvalue : readUnsigned Counter.last.toNat cs with
    | error fault => simp
    | ok n =>
        have hle := readUnsigned_le hvalue
        rw [Counter.toNat_last] at hle
        simp only [Except.ok.injEq, ← UInt64.toNat_inj, UInt64.toNat_ofNat']
        rw [Nat.mod_eq_of_lt (by omega)]

theorem unbracket?_eq_some_iff : unbracket? cs = some inner ↔ cs = '[' :: inner ++ [']'] := by
  unfold unbracket?
  split
  · next rest =>
      simp only [Option.ite_none_right_eq_some, Option.some.injEq, List.cons_append,
        List.cons.injEq, true_and, List.getLast?_eq_some_iff]
      constructor
      · rintro ⟨⟨front, rfl⟩, rfl⟩
        rw [List.dropLast_concat]
      · rintro rfl
        exact ⟨⟨inner, rfl⟩, List.dropLast_concat⟩
  · next hopen =>
      simp only [reduceCtorEq, false_iff]
      rintro rfl
      exact hopen _ rfl

theorem splitOn_eq_pair (hlower : sep ∉ lower) (hupper : sep ∉ upper) :
    (lower ++ sep :: upper).splitOn sep = [lower, upper] := by
  rw [List.splitOn_append_cons_self_of_not_mem hlower, List.splitOn_eq_singleton hupper]

theorem exists_pair_of_map_splitOn (h : (inner.splitOn sep).map strip = [lower, upper]) :
    ∃ first second,
      inner = first ++ sep :: second ∧ strip first = lower ∧ strip second = upper := by
  obtain ⟨first, rest, hpieces, hfirst, hrest⟩ := List.map_eq_cons_iff.mp h
  obtain ⟨second, rest, rfl, hsecond, hnil⟩ := List.map_eq_cons_iff.mp hrest
  obtain rfl := List.map_eq_nil_iff.mp hnil
  have hinner : [sep].intercalate (inner.splitOn sep) = inner := List.intercalate_splitOn sep
  rw [hpieces] at hinner
  exact ⟨first, second, by simpa using hinner.symm, hfirst, hsecond⟩

theorem bracketed_of_parse (h : parse cs = .ok i) : i.Bracketed cs := by
  unfold parse at h
  split at h
  · simp at h
  · next inner hinner =>
      split at h
      · next lower upper hpieces =>
          obtain ⟨a, ha, h⟩ := bind_eq_ok_iff.mp h
          obtain ⟨b, hb, h⟩ := bind_eq_ok_iff.mp h
          split at h
          · next j hj =>
              obtain rfl := Except.ok.inj h
              obtain ⟨rfl, rfl⟩ := Bounds.mk.inj (Bounds.toInterval?_eq_some_iff.mp hj)
              obtain ⟨first, second, rfl, rfl, rfl⟩ := exists_pair_of_map_splitOn hpieces
              refine ⟨first, second, unbracket?_eq_some_iff.mp hinner, ?_, ?_⟩
              · exact (padded_iff fun _ => Numeral.strip_eq).mpr (parseBound_eq_ok_iff.mp ha)
              · exact (padded_iff fun _ => Numeral.strip_eq).mpr (parseBound_eq_ok_iff.mp hb)
          · simp at h
      · simp at h

theorem parse_of_bracketed (h : i.Bracketed cs) : parse cs = .ok i := by
  obtain ⟨lower, upper, rfl, hlower, hupper⟩ := h
  have hcomma : ¬isBlank ',' := by decide
  have hpieces : (lower ++ ',' :: upper).splitOn ',' = [lower, upper] :=
    splitOn_eq_pair (Numeral.notMem_padded hlower hcomma (by decide) (by decide))
      (Numeral.notMem_padded hupper hcomma (by decide) (by decide))
  have hfirst := parseBound_eq_ok_iff.mpr ((padded_iff fun _ => Numeral.strip_eq).mp hlower)
  have hsecond := parseBound_eq_ok_iff.mpr ((padded_iff fun _ => Numeral.strip_eq).mp hupper)
  have hordered : Bounds.toInterval? ⟨i.lower, i.upper⟩ = some i :=
    Bounds.toInterval?_eq_some_iff.mpr rfl
  simp only [parse, unbracket?_eq_some_iff.mpr rfl, hpieces, List.map_cons, List.map_nil, hfirst,
    hsecond, hordered, bind, Except.bind]

theorem parse_eq_ok_iff : parse cs = .ok i ↔ i.Bracketed cs :=
  ⟨bracketed_of_parse, parse_of_bracketed⟩

end Interval

/-! ## Lists of ranges -/

/-- Pieces that are ranges are the pieces of no blank text. -/
theorem not_blank_of_pieces
    (h : List.Forall₂ (fun part i => Padded i.Bracketed part) (cs.splitOn ';') is) :
    ¬cs.all isBlank := by
  intro hall
  have hblank := List.all_eq_true.mp hall
  have hfree : ';' ∉ cs := fun hmem => absurd (hblank _ hmem) (by decide)
  rw [List.splitOn_eq_singleton hfree] at h
  cases h with
  | cons hpart _ =>
      rw [padded_iff fun _ => Interval.Bracketed.strip_eq, strip_eq_nil_iff.mpr hblank] at hpart
      obtain ⟨lower, upper, hnil, -, -⟩ := hpart
      simp at hnil

theorem listed_iff :
    Listed cs is ↔
      if cs.all isBlank then is = []
      else List.Forall₂ (fun part i => Padded i.Bracketed part) (cs.splitOn ';') is := by
  constructor
  · intro h
    cases h with
    | blank hblank => rw [if_pos (List.all_eq_true.mpr hblank)]
    | @ranges parts _ hne hparts =>
        have hfree : ∀ part ∈ parts, ';' ∉ part :=
          ((List.forall₂_and_left _ _).mp (hparts.imp fun _ _ hpart =>
            ⟨hpart.notMem (by decide) fun _ => Interval.Bracketed.semicolon_notMem, hpart⟩)).1
        have hpieces := List.splitOn_intercalate ';' hfree hne
        rw [← hpieces] at hparts
        rwa [if_neg (not_blank_of_pieces hparts)]
  · intro h
    split at h
    · next hall => exact h ▸ .blank (List.all_eq_true.mp hall)
    · have hranges := Listed.ranges (List.splitOn_ne_nil ';' cs) h
      rwa [List.intercalate_splitOn] at hranges

namespace ExclusionSet

theorem parsePart_eq_ok_iff : parsePart part = .ok i ↔ i.Bracketed part := by
  rw [← Interval.parse_eq_ok_iff, parsePart]
  cases Interval.parse part <;> simp

/-- Blanks alone are read as the empty set, and anything else piece by piece. -/
theorem parse_eq (s : String) :
    parse s =
      if s.toList.all isBlank then .ok empty
      else (((s.toList.splitOn ';').map strip).mapM parsePart).map ofIntervals := by
  have hsemicolon : ¬isBlank ';' := by decide
  simp only [parse, parseChars, List.isEmpty_iff, strip_eq_nil_iff, List.all_eq_true,
    map_strip_splitOn_strip hsemicolon]

theorem mapM_parsePart_eq_ok_iff {parts : List (List Char)} :
    (parts.map strip).mapM parsePart = .ok is ↔
      List.Forall₂ (fun part i => Padded i.Bracketed part) parts is := by
  rw [mapM_eq_ok_iff, List.forall₂_map_left_iff]
  simp only [parsePart_eq_ok_iff, padded_iff fun _ => Interval.Bracketed.strip_eq]

theorem parse_eq_ok_iff {s : String} {set : ExclusionSet} :
    parse s = .ok set ↔ ∃ is, Listed s.toList is ∧ ofIntervals is = set := by
  rw [parse_eq]
  split
  · next hblank =>
      simp only [listed_iff, if_pos hblank, Except.ok.injEq, exists_eq_left]
      rw [← ofIntervals_intervals empty]
      rfl
  · next hblank =>
      simp only [listed_iff, if_neg hblank, map_eq_ok_iff, mapM_parsePart_eq_ok_iff]

/-- A text is read if and only if it lists ranges, and the set that is read excludes just the
counters in those ranges; blanks are the empty set. Of any other text it is told what is wrong with
the configuration. -/
theorem parse_reads_listed (s : String) :
    ((∃ set, parse s = .ok set) ↔ ∃ is, Listed s.toList is) ∧
      (∀ is, Listed s.toList is → ∃ set, parse s = .ok set ∧ (is = [] → set = empty) ∧
        ∀ c, set.excludes c ↔ ∃ i ∈ is, i.contains c) ∧
      ((¬∃ is, Listed s.toList is) ↔ ∃ fault,
        ((parse s).mapError fun fault => Error.configuration (.excluded fault)) =
          .error (.configuration fault)) := by
  have hread : (∃ set, parse s = .ok set) ↔ ∃ is, Listed s.toList is := by
    simp only [parse_eq_ok_iff]
    exact ⟨fun ⟨_, is, h, _⟩ => ⟨is, h⟩, fun ⟨is, h⟩ => ⟨_, is, h, rfl⟩⟩
  refine ⟨hread, ?content, ?refusal⟩
  case content =>
    intro is h
    refine ⟨ofIntervals is, parse_eq_ok_iff.mpr ⟨is, h, rfl⟩, ?_, fun c => excludes_ofIntervals⟩
    rintro rfl
    exact ofIntervals_intervals empty
  case refusal =>
    rw [← hread]
    cases parse s <;> simp [Except.mapError]

example : parse " [ 4,+06 ] ;[1,3]" = .ok (ofIntervals [⟨⟨1, 6⟩, by decide⟩]) := by cbv

end ExclusionSet

end ShardKeys
