/-!
Cutting a list of characters in two at the first separator.
-/

namespace ShardKeys.Text

/-- The text before the first separator and the text after it, if there is one. -/
def cut? (sep : Char) : List Char → Option (List Char × List Char)
  | [] => none
  | c :: cs =>
      if c = sep then some ([], cs)
      else (cut? sep cs).map fun (before, after) => (c :: before, after)

/-- Putting the separator back between the two parts restores the text. -/
theorem eq_append_of_cut? {sep : Char} {cs before after : List Char}
    (h : cut? sep cs = some (before, after)) : cs = before ++ sep :: after := by
  induction cs generalizing before with
  | nil => simp [cut?] at h
  | cons c cs ih =>
      rw [cut?] at h
      split at h
      · simp_all
      · obtain ⟨⟨b, a⟩, hcut, hpair⟩ := Option.map_eq_some_iff.mp h
        simp only [Prod.mk.injEq] at hpair
        obtain ⟨rfl, rfl⟩ := hpair
        simp [ih hcut]

theorem cut?_eq_none_iff {sep : Char} {cs : List Char} : cut? sep cs = none ↔ sep ∉ cs := by
  induction cs with
  | nil => simp [cut?]
  | cons c cs ih =>
      by_cases hc : c = sep
      · simp [cut?, hc]
      · simp [cut?, hc, Ne.symm hc, ih]

/-- The first separator is where the text is cut. -/
theorem cut?_append {sep : Char} {before : List Char} (after : List Char) (h : sep ∉ before) :
    cut? sep (before ++ sep :: after) = some (before, after) := by
  induction before with
  | nil => simp [cut?]
  | cons c before ih =>
      obtain ⟨hc, hbefore⟩ := not_or.mp (mt List.mem_cons.mpr h)
      simp [cut?, Ne.symm hc, ih hbefore]

theorem notMem_of_cut? {sep : Char} {cs before after : List Char}
    (h : cut? sep cs = some (before, after)) : sep ∉ before := by
  induction cs generalizing before with
  | nil => simp [cut?] at h
  | cons c cs ih =>
      rw [cut?] at h
      split at h
      · simp_all
      · next hc =>
          obtain ⟨⟨b, a⟩, hcut, hpair⟩ := Option.map_eq_some_iff.mp h
          simp only [Prod.mk.injEq] at hpair
          obtain ⟨rfl, rfl⟩ := hpair
          simp [Ne.symm hc, ih hcut]

theorem cut?_eq_some_iff {sep : Char} {cs before after : List Char} :
    cut? sep cs = some (before, after) ↔ cs = before ++ sep :: after ∧ sep ∉ before := by
  constructor
  · exact fun h => ⟨eq_append_of_cut? h, notMem_of_cut? h⟩
  · rintro ⟨rfl, h⟩
    exact cut?_append after h

end ShardKeys.Text
