import ShardKeys.Text.Blank
import ShardKeys.Text.Numeral

/-! # Which texts are numerals

Digits are read from the front, and a value that passes the bound on the way would pass it in the
end. So a text is read if and only if it is a numeral whose value is within the bound.
-/

namespace ShardKeys.Text

/-- `Numeral cs n` says that `cs` writes `n`: one or more ASCII digits, behind at most one plus
sign. -/
inductive Numeral : List Char → Nat → Prop where
  | plain {ds : List Char} (nonempty : ds ≠ []) (digits : ∀ c ∈ ds, c.isDigit) :
      Numeral ds (Nat.ofDigitChars 10 ds 0)
  | signed {ds : List Char} (nonempty : ds ≠ []) (digits : ∀ c ∈ ds, c.isDigit) :
      Numeral ('+' :: ds) (Nat.ofDigitChars 10 ds 0)

variable {bound value n : Nat} {cs ds : List Char}

/-! ## Reading digits -/

theorem le_ofDigitChars (cs : List Char) (value : Nat) : value ≤ Nat.ofDigitChars 10 cs value := by
  induction cs generalizing value with
  | nil => simp
  | cons c cs ih =>
      rw [Nat.ofDigitChars_cons]
      exact Nat.le_trans (by omega) (ih _)

theorem readDigits_eq_ok_iff (hvalue : value ≤ bound) :
    readDigits bound value cs = .ok n ↔
      (∀ c ∈ cs, c.isDigit) ∧ Nat.ofDigitChars 10 cs value = n ∧ n ≤ bound := by
  induction cs generalizing value with
  | nil =>
      simp only [readDigits, Except.ok.injEq, Nat.ofDigitChars_nil, List.not_mem_nil, false_implies,
        implies_true, true_and, iff_self_and]
      exact fun h => h ▸ hvalue
  | cons c cs ih =>
      rw [readDigits, digit?, Nat.ofDigitChars_cons, List.forall_mem_cons]
      by_cases hc : c.isDigit
      · generalize c.toNat - '0'.toNat = d
        have hpassed := le_ofDigitChars cs (10 * value + d)
        by_cases hle : 10 * value + d ≤ bound
        · simp [hc, hle, ih hle]
        · simp only [hc, hle, if_true, if_false, reduceCtorEq, false_iff]
          omega
      · simp [hc]

/-! ## Reading numerals -/

theorem ne_plus_of_isDigit {c : Char} (h : c.isDigit) : c ≠ '+' := by
  rintro rfl
  simp at h

theorem readUnsigned_digits (hne : ds ≠ []) (h : ∀ c ∈ ds, c.isDigit) :
    readUnsigned bound ds = readDigits bound 0 ds := by
  unfold readUnsigned
  split
  case h_1 => exact absurd rfl hne
  case h_2 | h_3 => exact absurd rfl (ne_plus_of_isDigit (h '+' List.mem_cons_self))
  case h_4 => rfl

theorem readUnsigned_plus (hne : ds ≠ []) :
    readUnsigned bound ('+' :: ds) = readDigits bound 0 ds := by
  cases ds with
  | nil => exact absurd rfl hne
  | cons c ds => rfl

theorem readUnsigned_eq_ok_iff : readUnsigned bound cs = .ok n ↔ Numeral cs n ∧ n ≤ bound := by
  constructor
  case mp =>
    intro h
    unfold readUnsigned at h
    split at h
    case h_1 | h_2 => simp at h
    case h_3 ds hne =>
      obtain ⟨hdigits, rfl, hle⟩ := (readDigits_eq_ok_iff (Nat.zero_le _)).mp h
      exact ⟨.signed (by simpa using hne) hdigits, hle⟩
    case h_4 hne _ _ =>
      obtain ⟨hdigits, rfl, hle⟩ := (readDigits_eq_ok_iff (Nat.zero_le _)).mp h
      exact ⟨.plain (by simpa using hne) hdigits, hle⟩
  case mpr =>
    rintro ⟨hnumeral, hle⟩
    cases hnumeral with
    | plain hne hdigits =>
        rw [readUnsigned_digits hne hdigits]
        exact (readDigits_eq_ok_iff (Nat.zero_le _)).mpr ⟨hdigits, rfl, hle⟩
    | signed hne hdigits =>
        rw [readUnsigned_plus hne]
        exact (readDigits_eq_ok_iff (Nat.zero_le _)).mpr ⟨hdigits, rfl, hle⟩

/-! ## The characters of a numeral -/

theorem Numeral.mem (h : Numeral cs n) {c : Char} (hc : c ∈ cs) : c = '+' ∨ c.isDigit := by
  cases h with
  | plain _ digits => exact .inr (digits c hc)
  | signed _ digits =>
      rcases List.mem_cons.mp hc with rfl | hc
      · exact .inl rfl
      · exact .inr (digits c hc)

end ShardKeys.Text
