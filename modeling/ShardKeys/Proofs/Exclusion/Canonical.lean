import ShardKeys.Proofs.Exclusion.Bisection
import ShardKeys.Proofs.Exclusion.Search

/-! # One set for all lists with the same counters

Joining intervals that touch neither adds a counter nor loses one. Between two intervals of a set a
counter is free, so the counters determine the intervals: the first starts at the least of them and
ends before the first gap, and the others hold what is left.
-/

namespace ShardKeys

/-- Some interval of the list holds the counter. -/
def Covers (is : List Interval) (c : Counter) : Prop :=
  ∃ i ∈ is, i.contains c

variable {i j : Interval} {is js rest : List Interval} {c : Counter}

@[simp] theorem not_covers_nil : ¬Covers [] c := by
  simp [Covers]

@[simp] theorem covers_cons : Covers (i :: rest) c ↔ i.contains c ∨ Covers rest c := by
  simp [Covers]

theorem Interval.contains_iff_toNat :
    i.contains c ↔ i.lower.toNat ≤ c.toNat ∧ c.toNat ≤ i.upper.toNat := by
  rw [Bounds.contains_eq_true_iff, UInt64.le_iff_toNat_le, UInt64.le_iff_toNat_le]

theorem Interval.eq_of_bounds (hlower : i.lower = j.lower) (hupper : i.upper = j.upper) :
    i = j := by
  obtain ⟨⟨_, _⟩, _⟩ := i
  obtain ⟨⟨_, _⟩, _⟩ := j
  cases hlower
  cases hupper
  rfl

/-! ## Joining -/

theorem Interval.contains_extend (htouch : i.Touches j) (hlower : i.lower ≤ j.lower) :
    (i.extend j).contains c ↔ i.contains c ∨ j.contains c := by
  have hi := UInt64.le_iff_toNat_le.mp i.ordered
  have hj := UInt64.le_iff_toNat_le.mp j.ordered
  rw [UInt64.le_iff_toNat_le] at hlower
  unfold Touches at htouch
  simp only [contains_iff_toNat, lower_extend, toNat_upper_extend]
  omega

namespace ExclusionSet

variable {s t : ExclusionSet}

theorem covers_absorb (h : (i :: rest).Pairwise fun a b => a.lower ≤ b.lower) :
    Covers (absorb i rest) c ↔ Covers (i :: rest) c := by
  induction rest generalizing i with
  | nil => rw [absorb]
  | cons k rest ih =>
      obtain ⟨hi, hrest⟩ := List.pairwise_cons.mp h
      obtain ⟨hik, hi⟩ := List.forall_mem_cons.mp hi
      rw [absorb]
      split
      · next htouch =>
          have hextended : (i.extend k :: rest).Pairwise fun a b => a.lower ≤ b.lower :=
            List.pairwise_cons.mpr ⟨hi, hrest.of_cons⟩
          rw [ih hextended]
          simp only [covers_cons, Interval.contains_extend htouch hik, or_assoc]
      · rw [covers_cons, ih hrest]
        exact covers_cons.symm

theorem covers_coalesce (h : is.Pairwise fun a b => a.lower ≤ b.lower) :
    Covers (coalesce is) c ↔ Covers is c := by
  cases is with
  | nil => rfl
  | cons i rest => exact covers_absorb h

theorem excludes_iff_covers : s.excludes c ↔ Covers s.intervals c := by
  simp [excludes_iff, Covers]

theorem excludes_ofIntervals : (ofIntervals is).excludes c ↔ Covers is c := by
  rw [excludes_iff_covers, ofIntervals, covers_coalesce (sort_ascending is)]
  simp [Covers, sort]

/-! ## Intervals from counters -/

/-- No interval behind the first holds a counter at its end or just behind it. -/
theorem lt_of_covers_rest (hsep : (i :: rest).Pairwise Interval.Before) (h : Covers rest c) :
    i.upper.toNat + 1 < c.toNat := by
  obtain ⟨j, hj, hc⟩ := h
  have hbefore : i.upper.toNat + 1 < j.lower.toNat := (List.pairwise_cons.mp hsep).1 j hj
  have := (Interval.contains_iff_toNat.mp hc).1
  omega

theorem covers_rest_iff (hsep : (i :: rest).Pairwise Interval.Before) :
    Covers rest c ↔ Covers (i :: rest) c ∧ i.upper.toNat < c.toNat := by
  constructor
  · intro h
    have := lt_of_covers_rest hsep h
    exact ⟨covers_cons.mpr (.inr h), by omega⟩
  · rintro ⟨h, hlt⟩
    rcases covers_cons.mp h with hc | hc
    · have := (Interval.contains_iff_toNat.mp hc).2
      omega
    · exact hc

theorem lower_le_of_covers (hsep : (i :: rest).Pairwise Interval.Before)
    (h : Covers (i :: rest) c) :
    i.lower.toNat ≤ c.toNat := by
  have hi := UInt64.le_iff_toNat_le.mp i.ordered
  rcases covers_cons.mp h with hc | hc
  · exact (Interval.contains_iff_toNat.mp hc).1
  · have := lt_of_covers_rest hsep hc
    omega

theorem covers_lower : Covers (i :: rest) i.lower :=
  covers_cons.mpr (.inl (Bounds.contains_eq_true_iff.mpr ⟨UInt64.le_refl _, i.ordered⟩))

/-- Where separated intervals hold the counters of others, the first ends no later. -/
theorem upper_le_of_covers (hsep : (j :: js).Pairwise Interval.Before) (hlower : i.lower = j.lower)
    (h : ∀ c, Covers (i :: is) c → Covers (j :: js) c) : i.upper.toNat ≤ j.upper.toNat := by
  refine Nat.le_of_not_lt fun hlt => ?_
  have hj := UInt64.le_iff_toNat_le.mp j.ordered
  have hi := i.upper.toNat_lt
  have hnext : (UInt64.ofNat (j.upper.toNat + 1)).toNat = j.upper.toNat + 1 := by
    rw [UInt64.toNat_ofNat', Nat.mod_eq_of_lt (by omega)]
  have hheld : i.contains (UInt64.ofNat (j.upper.toNat + 1)) := by
    rw [Interval.contains_iff_toNat, hnext, hlower]
    omega
  rcases covers_cons.mp (h _ (covers_cons.mpr (.inl hheld))) with hc | hc
  · have := (Interval.contains_iff_toNat.mp hc).2
    omega
  · have := lt_of_covers_rest hsep hc
    omega

/-- Separated intervals are determined by the counters that they hold. -/
theorem eq_of_covers (his : is.Pairwise Interval.Before) (hjs : js.Pairwise Interval.Before)
    (h : ∀ c, Covers is c ↔ Covers js c) : is = js := by
  induction is generalizing js with
  | nil =>
      cases js with
      | nil => rfl
      | cons j js => exact absurd ((h j.lower).mpr covers_lower) not_covers_nil
  | cons i is ih =>
      cases js with
      | nil => exact absurd ((h i.lower).mp covers_lower) not_covers_nil
      | cons j js =>
          have hlower : i.lower = j.lower := by
            have hij := lower_le_of_covers his ((h j.lower).mpr covers_lower)
            have hji := lower_le_of_covers hjs ((h i.lower).mp covers_lower)
            exact UInt64.toNat_inj.mp (Nat.le_antisymm hij hji)
          have hupper : i.upper = j.upper := by
            have hij := upper_le_of_covers hjs hlower fun c => (h c).mp
            have hji := upper_le_of_covers his hlower.symm fun c => (h c).mpr
            exact UInt64.toNat_inj.mp (Nat.le_antisymm hij hji)
          obtain rfl := Interval.eq_of_bounds hlower hupper
          have hrest : ∀ c, Covers is c ↔ Covers js c := by
            intro c
            rw [covers_rest_iff his, covers_rest_iff hjs, h]
          rw [ih his.of_cons hjs.of_cons hrest]

theorem eq_of_excludes (h : ∀ c, s.excludes c ↔ t.excludes c) : s = t := by
  simp only [excludes_iff_covers] at h
  have hintervals := eq_of_covers s.separated t.separated h
  cases s
  cases t
  simpa using hintervals

theorem ofIntervals_intervals (s : ExclusionSet) : ofIntervals s.intervals = s :=
  eq_of_excludes fun _ => excludes_ofIntervals.trans excludes_iff_covers.symm

/-! ## The least and the greatest counter -/

/-- Two excluded counters between which all excluded counters lie. -/
structure IsHull (s : ExclusionSet) (b : Bounds) : Prop where
  lower : s.excludes b.lower
  upper : s.excludes b.upper
  between : ∀ c, s.excludes c → b.lower ≤ c ∧ c ≤ b.upper

theorem IsHull.unique {a b : Bounds} (ha : s.IsHull a) (hb : s.IsHull b) : a = b := by
  obtain ⟨lower, upper⟩ := a
  obtain ⟨lower', upper'⟩ := b
  obtain rfl : lower = lower' :=
    UInt64.le_antisymm (ha.between _ hb.lower).1 (hb.between _ ha.lower).1
  obtain rfl : upper = upper' :=
    UInt64.le_antisymm (hb.between _ ha.upper).2 (ha.between _ hb.upper).2
  rfl

theorem le_upper_of_covers {last : Interval} (hsep : is.Pairwise Interval.Before)
    (hlast : is.getLast? = some last) (h : Covers is c) : c.toNat ≤ last.upper.toNat := by
  obtain ⟨front, rfl⟩ := List.getLast?_eq_some_iff.mp hlast
  obtain ⟨i, hi, hc⟩ := h
  have hle := (Interval.contains_iff_toNat.mp hc).2
  rcases List.mem_append.mp hi with hi | hi
  · have hbefore : i.upper.toNat + 1 < last.lower.toNat :=
      (List.pairwise_append.mp hsep).2.2 i hi last (List.mem_singleton.mpr rfl)
    have hordered := UInt64.le_iff_toNat_le.mp last.ordered
    omega
  · rwa [List.mem_singleton.mp hi] at hle

theorem hull?_cases (s : ExclusionSet) :
    (s.hull? = none ∧ ∀ c, ¬s.excludes c) ∨ ∃ b, s.hull? = some b ∧ s.IsHull b := by
  have hsep := s.separated
  simp only [excludes_iff_covers, hull?]
  cases hs : s.intervals with
  | nil => exact .inl ⟨rfl, fun c => not_covers_nil⟩
  | cons i rest =>
      rw [hs] at hsep
      obtain ⟨last, hlast⟩ : ∃ last, (i :: rest).getLast? = some last :=
        ⟨_, List.getLast?_eq_some_getLast (List.cons_ne_nil i rest)⟩
      have hmem : last ∈ i :: rest := List.mem_of_getLast? hlast
      refine .inr ⟨⟨i.lower, last.upper⟩, by simp [hlast], ?lower, ?upper, ?between⟩
      case lower =>
        exact excludes_iff_covers.mpr (hs ▸ covers_lower)
      case upper =>
        refine excludes_iff_covers.mpr ⟨last, hs ▸ hmem, ?_⟩
        exact Bounds.contains_eq_true_iff.mpr ⟨last.ordered, UInt64.le_refl _⟩
      case between =>
        intro c hc
        rw [excludes_iff_covers, hs] at hc
        exact ⟨UInt64.le_iff_toNat_le.mpr (lower_le_of_covers hsep hc),
          UInt64.le_iff_toNat_le.mpr (le_upper_of_covers hsep hlast hc)⟩

theorem hull?_eq_none_iff : s.hull? = none ↔ ∀ c, ¬s.excludes c := by
  rcases s.hull?_cases with ⟨hnone, hfree⟩ | ⟨b, hb, hhull⟩
  · exact ⟨fun _ => hfree, fun _ => hnone⟩
  · rw [hb]
    exact ⟨fun h => by simp at h, fun h => absurd hhull.lower (h _)⟩

theorem hull?_eq_some_iff {b : Bounds} : s.hull? = some b ↔ s.IsHull b := by
  rcases s.hull?_cases with ⟨hnone, hfree⟩ | ⟨b', hb, hhull⟩
  · rw [hnone]
    exact ⟨fun h => by simp at h, fun h => absurd h.lower (hfree _)⟩
  · rw [hb, Option.some.injEq]
    exact ⟨fun h => h ▸ hhull, fun h => hhull.unique h⟩

/-- Lists of intervals become sets with a free counter between neighbours, in which just the
counters of the list are excluded, also where the look-up goes by halves. The ends of a set are its
least and its greatest counter. Lists with the same counters become one set, whatever their order
and however they overlap. -/
theorem ofIntervals_canonical (is : List Interval) :
    (ofIntervals is).intervals.Pairwise Interval.Before ∧
      (∀ c, (ofIntervals is).excludes c ↔ ∃ i ∈ is, i.contains c) ∧
      (∀ c, (ofIntervals is).excludesByHalves c = (ofIntervals is).excludes c) ∧
      (∀ b, (ofIntervals is).hull? = some b ↔ (ofIntervals is).IsHull b) ∧
      ((ofIntervals is).hull? = none ↔ ∀ c, ¬(ofIntervals is).excludes c) ∧
      ∀ js, ofIntervals is = ofIntervals js ↔
        ∀ c, (∃ i ∈ is, i.contains c) ↔ ∃ j ∈ js, j.contains c := by
  refine ⟨(ofIntervals is).separated, fun c => excludes_ofIntervals, excludesByHalves_eq _,
    fun b => hull?_eq_some_iff, hull?_eq_none_iff, fun js => ⟨?same, ?equal⟩⟩
  case same =>
    intro h c
    have hboth : Covers is c ↔ Covers js c := by
      rw [← excludes_ofIntervals, h, excludes_ofIntervals]
    exact hboth
  case equal =>
    intro h
    exact eq_of_excludes fun c => excludes_ofIntervals.trans ((h c).trans excludes_ofIntervals.symm)

example :
    ofIntervals [⟨⟨4, 6⟩, by decide⟩, ⟨⟨1, 3⟩, by decide⟩] = ofIntervals [⟨⟨1, 6⟩, by decide⟩] := by
    cbv

end ExclusionSet

end ShardKeys
