import ShardKeys.Exclusion.Printer
import ShardKeys.Proofs.Exclusion.Grammar

/-! # Reading what was written

The text of a set lists its intervals, and a set is the only one with its counters.
-/

namespace ShardKeys

open Text

theorem Text.numeral_toDigits (n : Nat) : Numeral (Nat.toDigits 10 n) n := by
  have hdigits : ∀ c ∈ Nat.toDigits 10 n, c.isDigit :=
    fun c hc => Nat.isDigit_of_mem_toDigits (by decide) (by decide) hc
  have h := Numeral.plain Nat.toDigits_ne_nil hdigits
  rwa [Nat.ofDigitChars_ten_toDigits] at h

theorem Text.Padded.of_self {P : List Char → Prop} {cs : List Char} (h : P cs) : Padded P cs :=
  ⟨[], cs, [], by simp, by simp, h, by simp⟩

theorem Interval.bracketed_text (i : Interval) : i.Bracketed i.toBounds.text.toList := by
  refine ⟨Nat.toDigits 10 i.lower.toNat, Nat.toDigits 10 i.upper.toNat, ?_, ?_, ?_⟩
  · simp [Bounds.text]
  · exact .of_self (numeral_toDigits _)
  · exact .of_self (numeral_toDigits _)

namespace ExclusionSet

theorem listed_text (s : ExclusionSet) : Listed s.text.toList s.intervals := by
  by_cases hnil : s.intervals = []
  · have hblank : ∀ c ∈ s.text.toList, isBlank c := by simp [text, hnil]
    exact hnil ▸ .blank hblank
  · rw [text, String.toList_intercalate, List.map_map]
    refine .ranges (by simpa using hnil) ?_
    rw [List.forall₂_map_left_iff, List.forall₂_same]
    exact fun i _ => .of_self i.bracketed_text

theorem parse_text (s : ExclusionSet) : parse s.text = .ok s :=
  parse_eq_ok_iff.mpr ⟨s.intervals, s.listed_text, s.ofIntervals_intervals⟩

variable {s t : ExclusionSet} {written : String}

/-- The text of a set tells which counters it excludes, and nothing else. -/
theorem text_eq_text_iff : s.text = t.text ↔ ∀ c, s.excludes c ↔ t.excludes c := by
  constructor
  · intro h
    have hparse := congrArg parse h
    rw [parse_text, parse_text] at hparse
    simp [Except.ok.inj hparse]
  · exact fun h => congrArg text (eq_of_excludes h)

/-- What is written for the set that was read of a text. -/
def normalText (written : String) : Except ExclusionFault String :=
  (parse written).map text

theorem normalText_of_parse (h : parse written = .ok s) : normalText written = .ok s.text := by
  rw [normalText, h]
  rfl

theorem normalText_text (s : ExclusionSet) : normalText s.text = .ok s.text :=
  normalText_of_parse s.parse_text

example : normalText " [ 4,+06 ] ;[1,3]" = .ok "[1,6]" := by cbv

end ExclusionSet

end ShardKeys
