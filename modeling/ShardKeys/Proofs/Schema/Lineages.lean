import ShardKeys.Proofs.Schema.Inheritance
import ShardKeys.Proofs.Schema.Order

/-! # The order of tables, lineage by lineage

To put parents first is to write down the lineage of every table, one behind the other, and to keep
each table where it stands first. Where the tables are declared parents first, nothing has to move.
-/

namespace ShardKeys

variable {α : Type} {parent : α → Option α} {a : α} {path nodes placed : List α}

/-! ## Places that hold whole ways up -/

theorem ReadyOrder.of_append {ready : List α → α → Prop} {done xs : List α}
    (h : ∀ front a back, xs = front ++ a :: back → ready (done ++ front) a) :
    ReadyOrder ready done xs := by
  induction xs generalizing done with
  | nil => trivial
  | cons x xs ih =>
      refine ⟨by simpa using h [] x xs rfl, ih ?_⟩
      rintro front a back rfl
      rw [List.append_assoc]
      exact h (x :: front) a back rfl

theorem ReadyOrder.parent_mem (h : ReadyOrder (MayFollow parent) [] placed) :
    ∀ x ∈ placed, ∀ b, parent x = some b → b ∈ placed := by
  intro x hx b hb
  obtain ⟨front, back, rfl⟩ := List.append_of_mem hx
  exact List.mem_append_left _ ((ReadyOrder.ready_of_append h).2 b hb)

namespace Climb

theorem nodup (h : Climb parent a path) : path.Nodup := by
  induction h with
  | root => exact List.nodup_singleton _
  | step hb hrest ih => exact List.nodup_cons.mpr ⟨hrest.notMem hb, ih⟩

theorem subset (h : Climb parent a path)
    (hplaced : ∀ x ∈ placed, ∀ b, parent x = some b → b ∈ placed)
    (ha : a ∈ placed) : path ⊆ placed := by
  intro x hx
  exact mem_of_reflTransGen hplaced ha (h.mem_iff.mp hx)

variable [DecidableEq α]

/-- Behind the first node that has a place there is none without. -/
theorem takeWhile_eq_filter (h : Climb parent a path)
    (hplaced : ∀ x ∈ placed, ∀ b, parent x = some b → b ∈ placed) :
    path.takeWhile (· ∉ placed) = path.filter (· ∉ placed) := by
  induction h with
  | @root a _ => by_cases ha : a ∈ placed <;> simp [ha]
  | @step a b path hb hrest ih =>
      by_cases ha : a ∈ placed
      · have hall := (Climb.step hb hrest).subset hplaced ha
        rw [List.takeWhile_cons_of_neg (by simpa using ha), eq_comm, List.filter_eq_nil_iff]
        intro x hx
        simpa using hall hx
      · rw [List.takeWhile_cons_of_pos (by simpa using ha),
          List.filter_cons_of_pos (by simpa using ha), ih]

theorem takeWhile_of_mayFollow (h : Climb parent a path) (ha : MayFollow parent placed a) :
    path.takeWhile (· ∉ placed) = [a] := by
  cases h with
  | root => simp [ha.1]
  | step hb hrest =>
      have hplaced := ha.2 _ hb
      cases hrest <;> simp [ha.1, hplaced]

end Climb

/-! ## First occurrences -/

variable [DecidableEq α]

theorem eraseDups_append_of_nodup {xs ys : List α} (hys : ys.Nodup) :
    (xs ++ ys).eraseDups = xs.eraseDups ++ ys.filter (· ∉ xs) := by
  induction ys using List.reverseRecOn with
  | nil => simp
  | append_singleton ys y ih =>
      obtain ⟨hys, -, hy⟩ := List.nodup_append.mp hys
      have hnew : y ∉ ys := fun hmem => hy y hmem y (List.mem_singleton_self y) rfl
      rw [← List.append_assoc, eraseDups_concat, ih hys, List.filter_append]
      by_cases hmem : y ∈ xs <;> simp [hmem, hnew]

/-- To place a node behind its ancestors is to write down its lineage and to keep first
occurrences. -/
theorem placeAfterAncestors_eraseDups {xs : List α} (ha : (ascend parent nodes a).closing = none)
    (hxs : ReadyOrder (MayFollow parent) [] xs.eraseDups) :
    placeAfterAncestors parent nodes xs.eraseDups a = (xs ++ lineage parent nodes a).eraseDups := by
  have hclimb := ascend_climb ha
  rw [placeAfterAncestors, hclimb.takeWhile_eq_filter hxs.parent_mem, lineage,
    eraseDups_append_of_nodup (List.nodup_reverse.mpr hclimb.nodup), List.filter_reverse]
  simp only [List.mem_eraseDups]

theorem foldl_placeAfterAncestors_eraseDups {rest xs : List α}
    (hrest : ∀ a ∈ rest, (ascend parent nodes a).closing = none)
    (hxs : ReadyOrder (MayFollow parent) [] xs.eraseDups) :
    rest.foldl (placeAfterAncestors parent nodes) xs.eraseDups =
      (xs ++ rest.flatMap (lineage parent nodes)).eraseDups := by
  induction rest generalizing xs with
  | nil => simp
  | cons a rest ih =>
      obtain ⟨ha, hrest⟩ := List.forall_mem_cons.mp hrest
      have hplace := placeAfterAncestors_eraseDups ha hxs
      have horder := ((ascend_climb ha).place hxs).1
      rw [← placeAfterAncestors, hplace] at horder
      rw [List.foldl_cons, hplace, ih hrest horder, List.flatMap_cons, List.append_assoc]

/-- Without a cycle, parents are put first by keeping the first occurrences in all lineages. -/
theorem parentsFirst_eq_eraseDups (h : cycle? parent nodes = none) :
    parentsFirst parent nodes = (nodes.flatMap (lineage parent nodes)).eraseDups := by
  have hstart : ReadyOrder (MayFollow parent) [] ([] : List α).eraseDups := ReadyOrder.nil
  exact foldl_placeAfterAncestors_eraseDups (cycle?_eq_none_iff.mp h) hstart

theorem foldl_placeAfterAncestors_of_readyOrder {rest : List α}
    (hrest : ∀ a ∈ rest, (ascend parent nodes a).closing = none)
    (horder : ReadyOrder (MayFollow parent) placed rest) :
    rest.foldl (placeAfterAncestors parent nodes) placed = placed ++ rest := by
  induction rest generalizing placed with
  | nil => simp
  | cons a rest ih =>
      obtain ⟨ha, hrest⟩ := List.forall_mem_cons.mp hrest
      have hplace : placeAfterAncestors parent nodes placed a = placed ++ [a] := by
        rw [placeAfterAncestors, (ascend_climb ha).takeWhile_of_mayFollow horder.1]
        rfl
      rw [List.foldl_cons, hplace, ih hrest horder.2, List.append_assoc, List.singleton_append]

theorem parentsFirst_eq_self (h : cycle? parent nodes = none)
    (horder : ReadyOrder (MayFollow parent) [] nodes) : parentsFirst parent nodes = nodes :=
  foldl_placeAfterAncestors_of_readyOrder (cycle?_eq_none_iff.mp h) horder

namespace Schema

variable {g : Schema}

theorem lineage_of_climb {t : Table} {path : List Table} (ht : t ∈ g.tables)
    (hpath : Climb g.parent? t path) : lineage (parentIn? g.tables) g.tables t = path.reverse := by
  obtain ⟨path', hpath', hlineage⟩ := ShardKeys.exists_climb g.acyclic ht
  rw [hlineage, hpath'.unique hpath]

theorem tablesInOrder_eq_tables
    (h : ∀ done t rest, g.tables = done ++ t :: rest → ∀ p, g.parent? t = some p → p ∈ done) :
    g.tablesInOrder = g.tables := by
  refine parentsFirst_eq_self g.acyclic (ReadyOrder.of_append fun done t rest htables => ⟨?_, ?_⟩)
  · intro hdone
    have hnodup := g.tables_nodup
    rw [htables] at hnodup
    exact (List.nodup_append.mp hnodup).2.2 t hdone t List.mem_cons_self rfl
  · exact h done t rest htables

/-- A schema whose tables are declared in the order of another one declares every table behind its
parent. -/
theorem parent_mem_of_declared_inOrder {h : Schema} (htables : h.tables = g.tablesInOrder) :
    ∀ done t rest, h.tables = done ++ t :: rest → ∀ p, h.parent? t = some p → p ∈ done := by
  intro done t rest hsplit p hp
  have hready : ReadyOrder (MayFollow (parentIn? g.tables)) [] g.tablesInOrder :=
    parentsFirst_readyOrder g.acyclic
  rw [← htables, hsplit] at hready
  rw [parent?, htables, parentIn?_perm g.tablesInOrder_perm g.names_nodup] at hp
  exact (ReadyOrder.ready_of_append hready).2 p hp

/-- The order of the tables is found without a fault: it lists the tables from the root down to each
table, in the order of declaration, and every table where it occurs first. Tables that are declared
behind their parents stay as declared; so a schema that is declared in its order keeps that
order. -/
theorem tablesInOrder_follows_lineages (g : Schema) :
    tablesInOrder? g.tables = .ok g.tablesInOrder ∧
      (∃ path : Table → List Table, (∀ t ∈ g.tables, Climb g.parent? t (path t)) ∧
        g.tablesInOrder = (g.tables.flatMap fun t => (path t).reverse).eraseDups) ∧
      ((∀ done t rest, g.tables = done ++ t :: rest → ∀ p, g.parent? t = some p → p ∈ done) →
        g.tablesInOrder = g.tables) ∧
      ∃ h, ofTables g.tablesInOrder = .ok h ∧ h.tables = g.tablesInOrder ∧
        h.tablesInOrder = g.tablesInOrder := by
  refine ⟨g.tablesInOrder?_eq, ?lineages, tablesInOrder_eq_tables, ?again⟩
  case lineages =>
    choose! path hpath using fun t (ht : t ∈ g.tables) => exists_climb ht
    refine ⟨path, hpath, ?_⟩
    have horder :
        g.tablesInOrder = (g.tables.flatMap (lineage (parentIn? g.tables) g.tables)).eraseDups :=
      parentsFirst_eq_eraseDups g.acyclic
    rw [horder, List.flatMap_congr fun t ht => lineage_of_climb ht (hpath t ht)]
  case again =>
    obtain ⟨h, hof, htables, -⟩ := exists_of_perm g.tablesInOrder_perm
    have horder := tablesInOrder_eq_tables (parent_mem_of_declared_inOrder htables)
    exact ⟨h, hof, htables, horder.trans htables⟩

/-- Declared from the street up, the tables are put in order from the country down; declared again
in this order, they stay. -/
theorem tablesInOrder_follows_lineages_streets :
    tablesInOrder? streets.tables = .ok [country, city, street] ∧
      ∃ h, ofTables [country, city, street] = .ok h ∧
        (∀ done t rest, h.tables = done ++ t :: rest → ∀ p, h.parent? t = some p → p ∈ done) ∧
        h.tablesInOrder = h.tables := by
  have horder : streets.tablesInOrder = [country, city, street] := by decide +kernel
  obtain ⟨hfound, -, -, h, hof, htables, -⟩ := tablesInOrder_follows_lineages streets
  have hdeclared := parent_mem_of_declared_inOrder htables
  rw [horder] at hfound hof
  exact ⟨hfound, h, hof, hdeclared, (tablesInOrder_follows_lineages h).2.2.1 hdeclared⟩

end Schema

end ShardKeys
