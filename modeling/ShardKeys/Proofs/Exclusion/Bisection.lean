import ShardKeys.Exclusion.Set

/-! # Looking up by halves

Where a condition holds of the entries up to some place and of none behind it, halving finds that
place. The intervals of a set are in such an order for every counter: those that end before it come
first.
-/

namespace ShardKeys

/-- The place between `lo` and `hi` from which on `p` holds no more, found by looking at the
middle. -/
def bisect {α : Type} (p : α → Bool) (xs : List α) (lo hi : Nat) : Nat :=
  if lo < hi then
    let middle := (lo + hi) / 2
    if xs[middle]?.any p then bisect p xs (middle + 1) hi else bisect p xs lo middle
  else lo
termination_by hi - lo

/-- `p` holds of the entries before a place, and of none from there on. -/
structure Parts {α : Type} (p : α → Bool) (xs : List α) (place : Nat) : Prop where
  before : ∀ k a, k < place → xs[k]? = some a → p a
  behind : ∀ k a, place ≤ k → xs[k]? = some a → ¬p a

section Bisection

variable {α : Type} {p : α → Bool} {xs : List α} {a b : α} {lo hi k m place : Nat}

theorem holds_of_le (hp : xs.Pairwise fun a b => p b → p a) (hkm : k ≤ m) (ha : xs[k]? = some a)
    (hb : xs[m]? = some b) (h : p b) : p a := by
  obtain ⟨hk, rfl⟩ := List.getElem?_eq_some_iff.mp ha
  obtain ⟨hm, rfl⟩ := List.getElem?_eq_some_iff.mp hb
  rcases Nat.eq_or_lt_of_le hkm with rfl | hlt
  · exact h
  · exact List.pairwise_iff_getElem.mp hp k m hk hm hlt h

theorem parts_bisect (hp : xs.Pairwise fun a b => p b → p a) (hle : lo ≤ hi)
    (hbefore : ∀ k a, k < lo → xs[k]? = some a → p a)
    (hbehind : ∀ k a, hi ≤ k → xs[k]? = some a → ¬p a) : Parts p xs (bisect p xs lo hi) := by
  fun_induction bisect p xs lo hi with
  | case1 lo hi hlt middle hmiddle ih =>
      obtain ⟨b, hb, hpb⟩ := Option.any_eq_true .. |>.mp hmiddle
      refine ih (by omega) ?_ hbehind
      intro k a hk ha
      exact holds_of_le hp (Nat.le_of_lt_succ hk) ha hb hpb
  | case2 lo hi hlt middle hmiddle ih =>
      refine ih (by omega) hbefore ?_
      intro k a hk ha hpa
      obtain ⟨hlength, -⟩ := List.getElem?_eq_some_iff.mp ha
      have hb : xs[middle]? = some xs[middle] := List.getElem?_eq_getElem (by omega)
      exact hmiddle (by simpa [hb] using holds_of_le hp hk hb ha hpa)
  | case3 lo hi hlt =>
      obtain rfl : lo = hi := by omega
      exact ⟨hbefore, hbehind⟩

theorem Parts.getElem?_eq_find? (h : Parts p xs place) : xs[place]? = xs.find? fun a => !p a := by
  symm
  cases ha : xs[place]? with
  | none =>
      rw [List.find?_eq_none]
      intro a hmem
      obtain ⟨k, hk⟩ := List.mem_iff_getElem?.mp hmem
      obtain ⟨hlength, -⟩ := List.getElem?_eq_some_iff.mp hk
      have hplace := List.getElem?_eq_none_iff.mp ha
      simpa using h.before k a (by omega) hk
  | some a =>
      obtain ⟨hplace, hentry⟩ := List.getElem?_eq_some_iff.mp ha
      rw [List.find?_eq_some_iff_getElem]
      refine ⟨by simpa using h.behind place a (Nat.le_refl _) ha, place, hplace, hentry, ?_⟩
      intro k hk
      simpa using h.before k _ hk (List.getElem?_eq_getElem _)

end Bisection

namespace ExclusionSet

/-- Whether a counter is excluded, as told by the interval to which halving leads. -/
def excludesByHalves (s : ExclusionSet) (c : Counter) : Bool :=
  let place := bisect (fun i => decide (i.upper < c)) s.intervals 0 s.intervals.length
  s.intervals[place]?.any (·.contains c)

/-- For every counter, the intervals that end before it come first. -/
theorem upper_ascending (s : ExclusionSet) (c : Counter) :
    s.intervals.Pairwise fun i j => decide (j.upper < c) → decide (i.upper < c) := by
  refine s.separated.imp fun {i j} hij hj => ?_
  have hordered := UInt64.le_iff_toNat_le.mp j.ordered
  unfold Interval.Before at hij
  simp only [decide_eq_true_eq, UInt64.lt_iff_toNat_lt] at hj ⊢
  omega

/-- The interval that holds a counter, if the one to which halving leads does. -/
def intervalByHalves? (s : ExclusionSet) (c : Counter) : Option Interval :=
  let place := bisect (fun i => decide (i.upper < c)) s.intervals 0 s.intervals.length
  s.intervals[place]?.filter (·.contains c)

theorem intervalByHalves?_eq (s : ExclusionSet) (c : Counter) :
    s.intervalByHalves? c = s.interval? c := by
  have hparts := parts_bisect (s.upper_ascending c) (Nat.zero_le s.intervals.length) (by simp)
    (by simp +contextual)
  have hends : (fun i : Interval => !decide (i.upper < c)) = fun i => decide (c ≤ i.upper) := by
    simp [← UInt64.not_lt]
  rw [intervalByHalves?, hparts.getElem?_eq_find?, hends, interval?]

theorem excludesByHalves_eq (s : ExclusionSet) (c : Counter) :
    s.excludesByHalves c = s.excludes c := by
  rw [excludes, ← intervalByHalves?_eq, intervalByHalves?, Option.isSome_filter, excludesByHalves]

end ExclusionSet

end ShardKeys
