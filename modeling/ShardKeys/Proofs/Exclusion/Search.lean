import ShardKeys.Exclusion.Set

/-! # Looking up excluded counters

A set looks at one interval only, the first that does not end before the counter. The order of the
intervals makes that the only one that can hold the counter.
-/

namespace ShardKeys.ExclusionSet

/-! ## Membership -/

/-- In separated intervals, the first that ends no earlier than `c` is the one that holds `c`. -/
theorem find?_eq_some_of_mem {is : List Interval} (hsep : is.Pairwise Interval.Before)
    {i : Interval} {c : Counter} (hi : i ∈ is) (hlower : i.lower ≤ c) (hupper : c ≤ i.upper) :
    is.find? (fun j => c ≤ j.upper) = some i := by
  induction is with
  | nil => simp at hi
  | cons j rest ih =>
      obtain ⟨hbefore, hrest⟩ := List.pairwise_cons.mp hsep
      rcases List.mem_cons.mp hi with rfl | hi
      · simp [hupper]
      · have hji : j.upper.toNat + 1 < i.lower.toNat := hbefore i hi
        have hic := UInt64.le_iff_toNat_le.mp hlower
        have hj : ¬c ≤ j.upper := by
          rw [UInt64.le_iff_toNat_le]
          omega
        rw [List.find?_cons_of_neg (by simpa using hj)]
        exact ih hrest hi

theorem interval?_eq_some_iff {s : ExclusionSet} {c : Counter} {i : Interval} :
    s.interval? c = some i ↔ i ∈ s.intervals ∧ i.lower ≤ c ∧ c ≤ i.upper := by
  constructor
  · intro h
    refine ⟨?_, contains_of_interval? h⟩
    exact List.mem_of_find?_eq_some (Option.filter_eq_some_iff.mp h).1
  · rintro ⟨hi, hlower, hupper⟩
    apply Option.filter_eq_some_iff.mpr
    refine ⟨find?_eq_some_of_mem s.separated hi hlower hupper, ?_⟩
    exact Bounds.contains_eq_true_iff.mpr ⟨hlower, hupper⟩

theorem excludes_iff {s : ExclusionSet} {c : Counter} :
    s.excludes c ↔ ∃ i ∈ s.intervals, i.lower ≤ c ∧ c ≤ i.upper := by
  rw [excludes, Option.isSome_iff_exists]
  simp only [interval?_eq_some_iff]

/-- An interval that holds `c` excludes all that lies from `c` to its end. -/
theorem excludes_of_interval? {s : ExclusionSet} {c x : Counter} {i : Interval}
    (h : s.interval? c = some i) (hc : c ≤ x) (hx : x ≤ i.upper) : s.excludes x := by
  obtain ⟨hi, hlower, _⟩ := interval?_eq_some_iff.mp h
  exact excludes_iff.mpr ⟨i, hi, UInt64.le_trans hlower hc, hx⟩

/-! ## The least allowed counter -/

/-- `d` is the first counter from `c` on that is not excluded. -/
structure IsLeastAllowed (s : ExclusionSet) (c d : Counter) : Prop where
  le : c ≤ d
  allowed : ¬s.excludes d
  excluded : ∀ x, c ≤ x → x < d → s.excludes x

theorem IsLeastAllowed.le_of_allowed {s : ExclusionSet} {c d x : Counter}
    (hd : s.IsLeastAllowed c d) (hc : c ≤ x) (hx : ¬s.excludes x) : d ≤ x := by
  apply UInt64.not_lt.mp
  intro hxd
  exact hx (hd.excluded x hc hxd)

theorem IsLeastAllowed.unique {s : ExclusionSet} {c d e : Counter} (hd : s.IsLeastAllowed c d)
    (he : s.IsLeastAllowed c e) : d = e :=
  UInt64.le_antisymm (hd.le_of_allowed he.le he.allowed) (he.le_of_allowed hd.le hd.allowed)

theorem leastAllowed?_of_free {s : ExclusionSet} {c : Counter} (h : s.interval? c = none) :
    s.leastAllowed? c = some c := by
  rw [leastAllowed?]
  split <;> simp_all

theorem leastAllowed?_of_last {s : ExclusionSet} {c : Counter} {i : Interval}
    (h : s.interval? c = some i) (hend : Counter.advance? i.upper 1 = none) :
    s.leastAllowed? c = none := by
  rw [leastAllowed?]
  split <;> grind

theorem leastAllowed?_of_jump {s : ExclusionSet} {c d : Counter} {i : Interval}
    (h : s.interval? c = some i) (hend : Counter.advance? i.upper 1 = some d) :
    s.leastAllowed? c = s.leastAllowed? d := by
  rw [leastAllowed?.eq_def s c]
  split <;> grind

/-- The search either finds the least allowed counter, or there is none. -/
theorem leastAllowed?_spec (s : ExclusionSet) (c : Counter) :
    (∃ d, s.leastAllowed? c = some d ∧ s.IsLeastAllowed c d) ∨
      (s.leastAllowed? c = none ∧ ∀ x, c ≤ x → s.excludes x) := by
  induction c using leastAllowed?.induct s with
  | case1 c hi =>
      refine .inl ⟨c, leastAllowed?_of_free hi, UInt64.le_refl c, ?_, ?_⟩
      · simp [excludes, hi]
      · intro x hcx hxc
        exact absurd hxc (UInt64.not_lt.mpr hcx)
  | case2 c i hi hd =>
      refine .inr ⟨leastAllowed?_of_last hi hd, ?_⟩
      intro x hcx
      have hend := Counter.advance?_eq_none_iff.mp hd
      have hx := UInt64.le_iff_toNat_le.mp (Counter.le_last x)
      exact excludes_of_interval? hi hcx (by rw [UInt64.le_iff_toNat_le]; omega)
  | case3 c i hi d hd ih =>
      have hjump := Counter.advance?_eq_some_iff.mp hd
      have hupper := (contains_of_interval? hi).2
      have hskip : ∀ x, c ≤ x → x < d → s.excludes x := by
        intro x hcx hxd
        rw [UInt64.lt_iff_toNat_lt] at hxd
        exact excludes_of_interval? hi hcx (by rw [UInt64.le_iff_toNat_le]; omega)
      have hcd : c ≤ d := by
        rw [UInt64.le_iff_toNat_le] at hupper ⊢
        omega
      rw [leastAllowed?_of_jump hi hd]
      rcases ih with ⟨e, he, hleast⟩ | ⟨hnone, hall⟩
      · refine .inl ⟨e, he, UInt64.le_trans hcd hleast.le, hleast.allowed, ?_⟩
        intro x hcx hxe
        rcases UInt64.lt_or_le x d with hxd | hdx
        · exact hskip x hcx hxd
        · exact hleast.excluded x hdx hxe
      · refine .inr ⟨hnone, ?_⟩
        intro x hcx
        rcases UInt64.lt_or_le x d with hxd | hdx
        · exact hskip x hcx hxd
        · exact hall x hdx

theorem leastAllowed?_eq_some_iff {s : ExclusionSet} {c d : Counter} :
    s.leastAllowed? c = some d ↔ s.IsLeastAllowed c d := by
  rcases leastAllowed?_spec s c with ⟨e, he, hleast⟩ | ⟨hnone, hall⟩
  · rw [he, Option.some.injEq]
    exact ⟨fun h => h ▸ hleast, fun h => hleast.unique h⟩
  · rw [hnone]
    refine ⟨fun h => by simp at h, fun h => ?_⟩
    exact absurd (hall d h.le) h.allowed

theorem leastAllowed?_eq_none_iff {s : ExclusionSet} {c : Counter} :
    s.leastAllowed? c = none ↔ ∀ x, c ≤ x → s.excludes x := by
  rcases leastAllowed?_spec s c with ⟨e, he, hleast⟩ | ⟨hnone, hall⟩
  · rw [he]
    refine ⟨fun h => by simp at h, fun h => ?_⟩
    exact absurd (h e hleast.le) hleast.allowed
  · exact ⟨fun _ => hall, fun _ => hnone⟩

end ShardKeys.ExclusionSet
