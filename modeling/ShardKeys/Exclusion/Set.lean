import ShardKeys.Exclusion.Interval

/-!
Sets of excluded counters. A set is held as intervals in ascending order with a free counter between
neighbours; the order is part of the value, so equal sets of counters are equal values. Membership
asks only the first interval that does not end before the counter.
-/

namespace ShardKeys

/-- Counters that are never made into keys. -/
structure ExclusionSet where
  intervals : List Interval
  separated : intervals.Pairwise Interval.Before := by exact .nil
  deriving DecidableEq

namespace ExclusionSet

/-- Lets an interval swallow what it touches of the intervals that start no earlier. -/
def absorb (i : Interval) : List Interval → List Interval
  | [] => [i]
  | j :: rest => if i.Touches j then absorb (i.extend j) rest else i :: absorb j rest

/-- Joins the intervals of a list in ascending order of lower bounds. -/
def coalesce : List Interval → List Interval
  | [] => []
  | i :: rest => absorb i rest

theorem lower_le_of_mem_absorb {i j : Interval} {rest : List Interval}
    (h : (i :: rest).Pairwise fun a b => a.lower ≤ b.lower) (hj : j ∈ absorb i rest) :
    i.lower ≤ j.lower := by
  induction rest generalizing i with
  | nil => simp_all [absorb]
  | cons k rest ih =>
      simp only [List.pairwise_cons, List.mem_cons, forall_eq_or_imp] at h
      rw [absorb] at hj
      split at hj
      · exact ih (i := i.extend k) (List.pairwise_cons.mpr ⟨h.1.2, h.2.2⟩) hj
      · rcases List.mem_cons.mp hj with rfl | hj
        · exact UInt64.le_refl _
        · exact UInt64.le_trans h.1.1 (ih (List.pairwise_cons.mpr h.2) hj)

theorem absorb_separated {i : Interval} {rest : List Interval}
    (h : (i :: rest).Pairwise fun a b => a.lower ≤ b.lower) :
    (absorb i rest).Pairwise Interval.Before := by
  induction rest generalizing i with
  | nil => simp [absorb]
  | cons k rest ih =>
      simp only [List.pairwise_cons, List.mem_cons, forall_eq_or_imp] at h
      rw [absorb]
      split
      · exact ih (List.pairwise_cons.mpr ⟨h.1.2, h.2.2⟩)
      · next hfree =>
          refine List.pairwise_cons.mpr ⟨fun j hj => ?_, ih (List.pairwise_cons.mpr h.2)⟩
          have hk := UInt64.le_iff_toNat_le.mp
            (lower_le_of_mem_absorb (List.pairwise_cons.mpr h.2) hj)
          have := Interval.not_touches_iff.mp hfree
          unfold Interval.Before at *
          omega

theorem coalesce_separated {is : List Interval} (h : is.Pairwise fun a b => a.lower ≤ b.lower) :
    (coalesce is).Pairwise Interval.Before := by
  cases is with
  | nil => exact .nil
  | cons i rest => exact absorb_separated h

/-- Intervals in ascending order of lower bounds. -/
def sort (is : List Interval) : List Interval :=
  is.mergeSort fun a b => a.lower ≤ b.lower

theorem sort_ascending (is : List Interval) : (sort is).Pairwise fun a b => a.lower ≤ b.lower := by
  have h : (is.mergeSort fun a b => decide (a.lower ≤ b.lower)).Pairwise _ :=
    List.pairwise_mergeSort
      (by simpa using fun (a b c : Interval) (h : a.lower ≤ b.lower) => UInt64.le_trans h)
      (by simpa using fun (a b : Interval) => UInt64.le_total a.lower b.lower) is
  simpa [sort] using h

def empty : ExclusionSet := ⟨[], .nil⟩

instance : Inhabited ExclusionSet := ⟨empty⟩

/-- The set of the counters that lie in one of the intervals. -/
def ofIntervals (is : List Interval) : ExclusionSet :=
  ⟨coalesce (sort is), coalesce_separated (sort_ascending is)⟩

def isEmpty (s : ExclusionSet) : Bool :=
  s.intervals.isEmpty

/-- The least and the greatest excluded counter. -/
def hull? (s : ExclusionSet) : Option Bounds := do
  return ⟨(← s.intervals.head?).lower, (← s.intervals.getLast?).upper⟩

/-- The interval that holds a counter. -/
def interval? (s : ExclusionSet) (c : Counter) : Option Interval :=
  (s.intervals.find? fun i => c ≤ i.upper).filter (·.contains c)

def excludes (s : ExclusionSet) (c : Counter) : Bool :=
  (s.interval? c).isSome

theorem contains_of_interval? {s : ExclusionSet} {c : Counter} {i : Interval}
    (h : s.interval? c = some i) : i.lower ≤ c ∧ c ≤ i.upper := by
  simpa using (Option.filter_eq_some_iff.mp h).2

/-- The least counter not below `c` that is allowed: past an interval that holds `c`, the search
goes on behind the interval. -/
def leastAllowed? (s : ExclusionSet) (c : Counter) : Option Counter :=
  match _hi : s.interval? c with
  | none => some c
  | some i =>
      match _hd : Counter.advance? i.upper 1 with
      | none => none
      | some d => leastAllowed? s d
termination_by Counter.last.toNat - c.toNat
decreasing_by
  have hc := UInt64.le_iff_toNat_le.mp (contains_of_interval? _hi).2
  have hd := Counter.advance?_eq_some_iff.mp _hd
  have := d.toNat_lt
  rw [Counter.toNat_last]
  omega

end ExclusionSet

end ShardKeys
