import ShardKeys.Proofs.Exclusion.Bisection
import ShardKeys.Proofs.Exclusion.Search

/-! # The search for an allowed counter

Between two intervals of a set lies a free counter. So the search for an allowed counter jumps at
most once: behind the interval that it leaves, no other one begins.
-/

namespace ShardKeys.ExclusionSet

variable {s : ExclusionSet} {c d n : Counter} {i : Interval}

/-! ## Jumps -/

/-- The search for an allowed counter with a look-up of its own, given up where it would jump more
often than `jumps` times. -/
def searchWithin (lookup : Counter → Option Interval) (jumps : Nat) (c : Counter) :
    Option (Option Counter) :=
  match lookup c with
  | none => some (some c)
  | some i =>
      match Counter.advance? i.upper 1 with
      | none => some none
      | some d =>
          match jumps with
          | 0 => none
          | jumps + 1 => searchWithin lookup jumps d

/-- A search that is not given up has found what the search without a limit finds. -/
theorem leastAllowed?_of_searchWithin {jumps : Nat} {found : Option Counter}
    (h : searchWithin s.interval? jumps c = some found) : s.leastAllowed? c = found := by
  fun_induction searchWithin s.interval? jumps c with
  | case1 jumps c hfree => rw [leastAllowed?_of_free hfree, Option.some.inj h]
  | case2 jumps c i hi hlast => rw [leastAllowed?_of_last hi hlast, Option.some.inj h]
  | case3 => simp at h
  | case4 c i hi d hjump jumps ih => rw [leastAllowed?_of_jump hi hjump, ih h]

theorem eq_or_before {j : Interval} (hi : i ∈ s.intervals) (hj : j ∈ s.intervals) :
    i = j ∨ i.Before j ∨ j.Before i := by
  have hsep : s.intervals.Pairwise fun a b => a = b ∨ a.Before b ∨ b.Before a :=
    s.separated.imp fun h => .inr (.inl h)
  refine hsep.forall_of_forall_of_flip (fun _ _ => .inl rfl) ?_ hi hj
  exact s.separated.imp fun h => .inr (.inr h)

/-- The counter behind an interval is free. -/
theorem interval?_behind (hi : s.interval? c = some i) (hd : Counter.advance? i.upper 1 = some d) :
    s.interval? d = none := by
  have hbehind := Counter.advance?_eq_some_iff.mp hd
  rw [Option.eq_none_iff_forall_not_mem]
  intro j hj
  obtain ⟨hi, -, -⟩ := interval?_eq_some_iff.mp hi
  obtain ⟨hj, hlower, hupper⟩ := interval?_eq_some_iff.mp hj
  rw [UInt64.le_iff_toNat_le] at hlower hupper
  have hordered := UInt64.le_iff_toNat_le.mp i.ordered
  rcases eq_or_before hi hj with rfl | hij | hji
  · omega
  · unfold Interval.Before at hij
    omega
  · unfold Interval.Before at hji
    omega

theorem searchWithin_one (s : ExclusionSet) (c : Counter) :
    searchWithin s.interval? 1 c = some (s.leastAllowed? c) := by
  obtain ⟨found, hfound⟩ : ∃ found, searchWithin s.interval? 1 c = some found := by
    unfold searchWithin
    split
    · exact ⟨_, rfl⟩
    · next i hi =>
        split
        · exact ⟨_, rfl⟩
        · next d hd =>
            simp only [searchWithin, interval?_behind hi hd]
            exact ⟨_, rfl⟩
  rw [hfound, leastAllowed?_of_searchWithin hfound]

/-! ## What is found -/

theorem leastAllowed?_mono (hcd : c ≤ d) (hn : s.leastAllowed? d = some n) :
    ∃ m, s.leastAllowed? c = some m ∧ m ≤ n := by
  have hleast := leastAllowed?_eq_some_iff.mp hn
  have hcn : c ≤ n := UInt64.le_trans hcd hleast.le
  rcases s.leastAllowed?_spec c with ⟨m, hm, hleast'⟩ | ⟨-, hall⟩
  · exact ⟨m, hm, hleast'.le_of_allowed hcn hleast.allowed⟩
  · exact absurd (hall n hcn) hleast.allowed

theorem leastAllowed?_of_found (hn : s.leastAllowed? c = some n) : s.leastAllowed? n = some n := by
  have hleast := leastAllowed?_eq_some_iff.mp hn
  refine leastAllowed?_eq_some_iff.mpr ⟨UInt64.le_refl n, hleast.allowed, ?_⟩
  intro x hx hxn
  exact absurd hxn (UInt64.not_lt.mpr hx)

end ShardKeys.ExclusionSet
