import Mathlib.Data.List.Induction
import Mathlib.Data.List.Nodup
import ShardKeys.Proofs.Schema.Descent
import ShardKeys.Schema.Layout

/-! # Layouts and ancestors

The layout of a table is made of the layout above it, that of its parent. Its key holds the key
columns of the table and of all its ancestors, each once, and a column that the table does not
declare is defined as the layout above defines it.
-/

namespace ShardKeys

/-! ## Keys without repetition -/

section FirstOccurrences

variable {α : Type} [DecidableEq α]

theorem eraseDups_concat (xs : List α) (x : α) :
    (xs ++ [x]).eraseDups = if x ∈ xs then xs.eraseDups else xs.eraseDups ++ [x] := by
  by_cases hx : x ∈ xs <;> simp [List.eraseDups_append, List.eraseDups_cons, List.removeAll, hx]

theorem nodup_eraseDups (xs : List α) : xs.eraseDups.Nodup := by
  induction xs using List.reverseRecOn with
  | nil => simp
  | append_singleton xs x ih =>
      rw [eraseDups_concat]
      split
      · exact ih
      · next hx =>
          rw [← List.concat_eq_append]
          exact List.Nodup.concat (by simpa using hx) ih

end FirstOccurrences

namespace Layout

variable {above l : Layout} {t : Table} {c : String} {column : Column}

/-- To extend a key that keeps first occurrences is to keep those of the longer list. -/
theorem extendKey_eraseDups (xs ys : List String) :
    extendKey xs.eraseDups ys = (xs ++ ys).eraseDups := by
  induction ys generalizing xs with
  | nil => simp [extendKey]
  | cons y ys ih =>
      have hconcat : xs ++ y :: ys = xs ++ [y] ++ ys := by simp
      rw [hconcat, ← ih, eraseDups_concat]
      simp [extendKey]

theorem mem_extendKey {key columns : List String} :
    c ∈ extendKey key columns ↔ c ∈ key ∨ c ∈ columns := by
  induction columns generalizing key with
  | nil => simp [extendKey]
  | cons first rest ih =>
      have hstep : extendKey key (first :: rest) =
          extendKey (if first ∈ key then key else key ++ [first]) rest := rfl
      rw [hstep, ih]
      by_cases hfirst : first ∈ key
      · rw [if_pos hfirst, List.mem_cons]
        grind
      · simp [hfirst, or_assoc]

theorem ofLineage_concat (tables : List Table) (t : Table) :
    ofLineage (tables ++ [t]) = (ofLineage tables).below t :=
  List.foldl_concat ..

theorem key_ofLineage (tables : List Table) :
    (ofLineage tables).key = (tables.flatMap (·.key)).eraseDups := by
  induction tables using List.reverseRecOn with
  | nil => rfl
  | append_singleton tables t ih =>
      rw [ofLineage_concat, below, ih, extendKey_eraseDups]
      simp

/-! ## Definitions of columns -/

theorem name_of_column? (h : l.column? c = some column) : column.name = c := by
  rcases Option.or_eq_some_iff.mp h with h | ⟨-, h⟩
  · simpa using List.find?_some h
  · simpa using List.find?_some h

theorem find?_filterMap_column? (names : List String) :
    (names.filterMap l.column?).find? (·.name = c) = if c ∈ names then l.column? c else none := by
  induction names with
  | nil => rfl
  | cons name names ih =>
      cases hcolumn : l.column? name with
      | none =>
          rw [List.filterMap_cons_none hcolumn, ih]
          by_cases hname : c = name
          · subst hname
            simp [hcolumn]
          · simp [hname]
      | some column =>
          rw [List.filterMap_cons_some hcolumn]
          by_cases hname : c = name
          · subst hname
            simp [name_of_column? hcolumn, hcolumn]
          · rw [List.find?_cons_of_neg (by simpa [name_of_column? hcolumn] using Ne.symm hname), ih]
            simp [hname]

/-- A column is defined by the table, or else, in the key of the layout above, as it is there. -/
theorem column?_below :
    (above.below t).column? c =
      (t.column? c).or (if c ∈ above.key then above.column? c else none) := by
  rw [column?, below, find?_filterMap_column?]
  change (t.column? c).or _ = _
  cases h : t.column? c <;> simp [h]

/-- Every column of the key has a definition. -/
def Complete (l : Layout) : Prop :=
  ∀ c ∈ l.key, (l.column? c).isSome

theorem undeclared?_eq_none_iff : l.undeclared? = none ↔ l.Complete := by
  simp [undeclared?, Complete, List.find?_eq_none, Option.isSome_iff_ne_none]

end Layout

/-! ## Layouts of tables among others -/

/-- The layout of the parent of a table; the empty one above a root. -/
def layoutAbove (tables : List Table) (t : Table) : Layout :=
  ((parentIn? tables t).map (layoutIn tables)).getD {}

variable {tables path : List Table} {t p : Table} {c : String}

theorem layoutAbove_of_root (h : parentIn? tables t = none) : layoutAbove tables t = {} := by
  simp [layoutAbove, h]

theorem layoutAbove_of_parent (h : parentIn? tables t = some p) :
    layoutAbove tables t = layoutIn tables p := by
  simp [layoutAbove, h]

theorem mem_of_parentIn? (h : parentIn? tables t = some p) : p ∈ tables := by
  obtain ⟨name, -, hfind⟩ := Option.bind_eq_some_iff.mp h
  exact List.mem_of_find?_eq_some hfind

section Acyclic

variable (hacyclic : cycle? (parentIn? tables) tables = none)

include hacyclic

theorem layoutIn_of_climb (ht : t ∈ tables) (hpath : Climb (parentIn? tables) t path) :
    layoutIn tables t = .ofLineage path.reverse := by
  obtain ⟨path', hpath', hlineage⟩ := exists_climb hacyclic ht
  rw [layoutIn, hlineage, hpath'.unique hpath]

theorem layoutIn_eq_below (ht : t ∈ tables) :
    layoutIn tables t = (layoutAbove tables t).below t := by
  obtain ⟨path, hpath, -⟩ := exists_climb hacyclic ht
  rw [layoutIn_of_climb hacyclic ht hpath]
  cases hpath with
  | root hroot => simp [layoutAbove_of_root hroot, Layout.ofLineage]
  | step hp hrest =>
      rw [List.reverse_cons, Layout.ofLineage_concat, layoutAbove_of_parent hp,
        layoutIn_of_climb hacyclic (mem_of_parentIn? hp) hrest]

theorem mem_key_layoutAbove (ht : t ∈ tables) :
    c ∈ (layoutAbove tables t).key ↔ ∃ a, Descends (parentIn? tables) t a ∧ c ∈ a.key := by
  obtain ⟨path, hpath, -⟩ := exists_climb hacyclic ht
  cases hpath with
  | root hroot => simp [layoutAbove_of_root hroot, not_descends_of_root hroot]
  | @step _ _ path hp hrest =>
      rw [layoutAbove_of_parent hp, layoutIn_of_climb hacyclic (mem_of_parentIn? hp) hrest]
      simp [Layout.key_ofLineage, hrest.descends_iff_mem hp]

theorem mem_key_layoutIn (ht : t ∈ tables) :
    c ∈ (layoutIn tables t).key ↔ c ∈ (layoutAbove tables t).key ∨ c ∈ t.key := by
  rw [layoutIn_eq_below hacyclic ht]
  exact Layout.mem_extendKey

theorem isSome_column?_layoutIn (ht : t ∈ tables) (habove : (layoutAbove tables t).Complete) :
    ((layoutIn tables t).column? c).isSome ↔
      (t.column? c).isSome ∨ c ∈ (layoutAbove tables t).key := by
  rw [layoutIn_eq_below hacyclic ht, Layout.column?_below, Option.isSome_or, Bool.or_eq_true]
  by_cases hc : c ∈ (layoutAbove tables t).key
  · simp [hc, habove c hc]
  · simp [hc]

/-- Below a complete layout, a table has to declare what its key adds. -/
theorem complete_layoutIn_iff (ht : t ∈ tables) (habove : (layoutAbove tables t).Complete) :
    (layoutIn tables t).Complete ↔
      ∀ c ∈ t.key, (t.column? c).isSome ∨ ∃ a, Descends (parentIn? tables) t a ∧ c ∈ a.key := by
  simp only [← mem_key_layoutAbove hacyclic ht, ← isSome_column?_layoutIn hacyclic ht habove]
  constructor
  · intro h c hc
    exact h c ((mem_key_layoutIn hacyclic ht).mpr (.inr hc))
  · intro h c hc
    rcases (mem_key_layoutIn hacyclic ht).mp hc with hc | hc
    · exact (isSome_column?_layoutIn hacyclic ht habove).mpr (.inr hc)
    · exact h c hc

/-- All layouts are complete just if every table declares what its key adds to those of its
ancestors. -/
theorem forall_complete_iff :
    (∀ t ∈ tables, (layoutIn tables t).Complete) ↔
      ∀ t ∈ tables, ∀ c ∈ t.key,
        (t.column? c).isSome ∨ ∃ a, Descends (parentIn? tables) t a ∧ c ∈ a.key := by
  have hroot : ∀ t, parentIn? tables t = none → (layoutAbove tables t).Complete := fun t h => by
    simp [layoutAbove_of_root h, Layout.Complete]
  constructor
  · intro h t ht
    refine (complete_layoutIn_iff hacyclic ht ?_).mp (h t ht)
    cases hp : parentIn? tables t with
    | none => exact hroot t hp
    | some p => exact layoutAbove_of_parent hp ▸ h p (mem_of_parentIn? hp)
  · intro h t ht
    obtain ⟨path, hpath, -⟩ := exists_climb hacyclic ht
    refine (complete_layoutIn_iff hacyclic ht ?_).mpr (h t ht)
    induction hpath with
    | root hp => exact hroot _ hp
    | step hp _ ih =>
        have hmem := mem_of_parentIn? hp
        rw [layoutAbove_of_parent hp]
        exact (complete_layoutIn_iff hacyclic hmem (ih hmem)).mpr (h _ hmem)

end Acyclic

end ShardKeys
