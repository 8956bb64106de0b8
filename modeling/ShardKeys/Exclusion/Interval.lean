import ShardKeys.Counter

/-!
Closed intervals of counters. `Bounds` is a pair as it may be stored, `Interval` a pair in order.
-/

namespace ShardKeys

/-- Two bounds as stored, in order or not. -/
structure Bounds where
  lower : Counter
  upper : Counter
  deriving DecidableEq, Repr

/-- An interval of counters, both ends included. -/
structure Interval extends Bounds where
  ordered : lower ≤ upper
  deriving DecidableEq

namespace Bounds

def contains (b : Bounds) (c : Counter) : Bool :=
  b.lower ≤ c && c ≤ b.upper

/-- Bounds as they are written in a list of ranges. -/
def text (b : Bounds) : String :=
  "[" ++ toString b.lower.toNat ++ "," ++ toString b.upper.toNat ++ "]"

def toInterval? (b : Bounds) : Option Interval :=
  if h : b.lower ≤ b.upper then some ⟨b, h⟩ else none

@[simp] theorem contains_eq_true_iff {b : Bounds} {c : Counter} :
    b.contains c = true ↔ b.lower ≤ c ∧ c ≤ b.upper := by
  simp [contains]

theorem toInterval?_eq_some_iff {b : Bounds} {i : Interval} :
    b.toInterval? = some i ↔ i.toBounds = b := by
  constructor
  · intro h
    simp only [toInterval?] at h
    split at h
    · simp only [Option.some.injEq] at h
      exact h ▸ rfl
    · simp at h
  · rintro rfl
    simp [toInterval?, i.ordered]

end Bounds

namespace Interval

/-- No counter is left free between `i` and an interval `j` that starts no earlier. -/
def Touches (i j : Interval) : Prop :=
  j.lower.toNat ≤ i.upper.toNat + 1

instance (i j : Interval) : Decidable (i.Touches j) :=
  inferInstanceAs (Decidable (_ ≤ _))

/-- At least one counter is left free between the end of `i` and the start of `j`. -/
def Before (i j : Interval) : Prop :=
  i.upper.toNat + 1 < j.lower.toNat

/-- The interval from the start of `i` to the end of the one that ends later. -/
def extend (i j : Interval) : Interval where
  lower := i.lower
  upper := if i.upper ≤ j.upper then j.upper else i.upper
  ordered := by
    split
    · next h => exact UInt64.le_trans i.ordered h
    · exact i.ordered

theorem not_touches_iff {i j : Interval} : ¬i.Touches j ↔ i.Before j := by
  unfold Touches Before
  omega

@[simp] theorem lower_extend (i j : Interval) : (i.extend j).lower = i.lower := rfl

theorem toNat_upper_extend (i j : Interval) :
    (i.extend j).upper.toNat = max i.upper.toNat j.upper.toNat := by
  unfold extend
  split
  · next h =>
      have := UInt64.le_iff_toNat_le.mp h
      grind
  · next h =>
      have := mt UInt64.le_iff_toNat_le.mpr h
      grind

end Interval

end ShardKeys
