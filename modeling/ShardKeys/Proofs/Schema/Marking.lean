import ShardKeys.Proofs.Schema.Cycles

/-! # Looking for a cycle by marks

Ways up are walked from one node after the other, and a walk ends at a node that an earlier one is
done with. From there the way goes on to a root, so no cycle is missed; and a walk that meets a node
of its own path has closed the cycle into which the way up runs.
-/

namespace ShardKeys

/-- What is known of a node while ways up are walked. -/
inductive Mark where
  | unvisited
  | onPath
  | done
  deriving DecidableEq

/-- The parent of a node as a list of parents has it. -/
def parentAt (parents : List (Option Nat)) (i : Nat) : Option Nat :=
  parents[i]?.join

/-- A walk from parent to parent that marks its nodes. It ends at a root or at a node that is done
with, with the marks and the path, or else with a cycle: the path from where it met the node first.
There is no answer if a mark or a parent is looked up that is not there. -/
def walk (parents : List (Option Nat)) (marks : List Mark) (path : List Nat) (node : Option Nat) :
    Option (Except (List Nat) (List Mark × List Nat)) :=
  match node with
  | none => some (.ok (marks, path))
  | some i =>
      match _hmark : marks[i]? with
      | none => none
      | some .done => some (.ok (marks, path))
      | some .onPath => some (.error (path.drop ((path.findIdx? (· = i)).getD 0)))
      | some .unvisited =>
          match parents[i]? with
          | none => none
          | some next => walk parents (marks.set i .onPath) (path ++ [i]) next
termination_by marks.count .unvisited
decreasing_by
  obtain ⟨hi, hmark⟩ := List.getElem?_eq_some_iff.mp _hmark
  have hpos : 0 < marks.count .unvisited := List.count_pos_iff.mpr (hmark ▸ List.getElem_mem hi)
  have hcount : (marks.set i .onPath).count .unvisited = marks.count .unvisited - 1 := by
    rw [List.count_set hi, hmark]
    rfl
  omega

/-- Marks the nodes of a path as done with, unless a mark is not there. -/
def settle (marks : List Mark) (path : List Nat) : Option (List Mark) :=
  path.foldlM (fun marks i => if i < marks.length then some (marks.set i .done) else none) marks

/-- The first cycle that a walk from one of the nodes runs into. -/
def searchFrom (parents : List (Option Nat)) (marks : List Mark) :
    List Nat → Option (Option (List Nat))
  | [] => some none
  | i :: rest =>
      match walk parents marks [] (some i) with
      | none => none
      | some (.error cycle) => some (some cycle)
      | some (.ok (marks, path)) =>
          (settle marks path).bind fun marks => searchFrom parents marks rest

/-- The search for a cycle by marks, for parents that are given by their places in the list. -/
def cycleByMarks? (parents : List (Option Nat)) : Option (Option (List Nat)) :=
  searchFrom parents (List.replicate parents.length .unvisited) (List.range parents.length)

variable {parents : List (Option Nat)} {marks : List Mark} {path above : List Nat} {i : Nat}

/-- The marks while a path is walked: its nodes are marked as such, and from what is done with, a
way up leads to a root. -/
structure Marked (parents : List (Option Nat)) (path : List Nat) (marks : List Mark) : Prop where
  length_eq : marks.length = parents.length
  nodup : path.Nodup
  onPath_iff : ∀ i, marks[i]? = some .onPath ↔ i ∈ path
  climbs : ∀ i, marks[i]? = some .done → ∃ above, Climb (parentAt parents) i above

/-! ## Steps of a walk -/

namespace Marked

theorem start (parents : List (Option Nat)) :
    Marked parents [] (List.replicate parents.length .unvisited) where
  length_eq := List.length_replicate
  nodup := List.nodup_nil
  onPath_iff := by simp [List.getElem?_replicate]
  climbs := by simp [List.getElem?_replicate]

theorem visit (h : Marked parents path marks) (hi : marks[i]? = some .unvisited) :
    Marked parents (path ++ [i]) (marks.set i .onPath) := by
  have hlength := (List.getElem?_eq_some_iff.mp hi).1
  have hnew : i ∉ path := by
    rw [← h.onPath_iff, hi]
    simp
  constructor
  case length_eq => rw [List.length_set, h.length_eq]
  case nodup => exact List.concat_eq_append ▸ h.nodup.concat hnew
  case onPath_iff =>
    intro j
    rw [List.getElem?_set, List.mem_append, List.mem_singleton, ← h.onPath_iff]
    by_cases hj : i = j
    · simp [hj, hj ▸ hlength]
    · simp [hj, Ne.symm hj]
  case climbs =>
    intro j hj
    rw [List.getElem?_set] at hj
    by_cases hij : i = j
    · simp [hij, hij ▸ hlength] at hj
    · rw [if_neg hij] at hj
      exact h.climbs j hj

theorem lt_of_mem (h : Marked parents path marks) (hi : i ∈ path) : i < marks.length :=
  (List.getElem?_eq_some_iff.mp ((h.onPath_iff i).mpr hi)).1

theorem mark_of_notMem (h : Marked parents path marks) (hi : i < parents.length) (hnew : i ∉ path) :
    marks[i]? = some .done ∨ marks[i]? = some .unvisited := by
  obtain ⟨mark, hmark⟩ : ∃ mark, marks[i]? = some mark :=
    ⟨_, List.getElem?_eq_getElem (h.length_eq ▸ hi)⟩
  cases mark with
  | unvisited => exact .inr hmark
  | onPath => exact absurd ((h.onPath_iff i).mp hmark) hnew
  | done => exact .inl hmark

theorem done (h : Marked parents (i :: path) marks)
    (hi : ∃ above, Climb (parentAt parents) i above) :
    Marked parents path (marks.set i .done) := by
  obtain ⟨hnew, hnodup⟩ := List.nodup_cons.mp h.nodup
  have hlength := h.lt_of_mem List.mem_cons_self
  constructor
  case length_eq => rw [List.length_set, h.length_eq]
  case nodup => exact hnodup
  case onPath_iff =>
    intro j
    rw [List.getElem?_set]
    by_cases hj : i = j
    · simp [← hj, hlength, hnew]
    · rw [if_neg hj, h.onPath_iff, List.mem_cons, or_iff_right (Ne.symm hj)]
  case climbs =>
    intro j hj
    rw [List.getElem?_set] at hj
    by_cases hij : i = j
    · exact hij ▸ hi
    · rw [if_neg hij] at hj
      exact h.climbs j hj

theorem settle (h : Marked parents path marks)
    (hpath : ∀ i ∈ path, ∃ above, Climb (parentAt parents) i above) :
    ∃ marks', settle marks path = some marks' ∧ Marked parents [] marks' := by
  induction path generalizing marks with
  | nil => exact ⟨marks, rfl, h⟩
  | cons i path ih =>
      obtain ⟨hi, hpath⟩ := List.forall_mem_cons.mp hpath
      have hlength := h.lt_of_mem List.mem_cons_self
      obtain ⟨marks', hsettle, hmarked⟩ := ih (h.done hi) hpath
      refine ⟨marks', ?_, hmarked⟩
      rw [← hsettle, ShardKeys.settle, List.foldlM_cons, if_pos hlength]
      rfl

end Marked

theorem findIdx?_append_cons {front back : List Nat} (h : i ∉ front) :
    (front ++ i :: back).findIdx? (· = i) = some front.length := by
  have hnone : front.findIdx? (· = i) = none := by
    rw [List.findIdx?_eq_none_iff]
    intro c hc
    simpa using fun hci : c = i => h (hci ▸ hc)
  rw [List.findIdx?_append, hnone, List.findIdx?_cons]
  simp

theorem walk_some (parents : List (Option Nat)) (marks : List Mark) (path : List Nat) (i : Nat) :
    walk parents marks path (some i) =
      match marks[i]? with
      | none => none
      | some .done => some (.ok (marks, path))
      | some .onPath => some (.error (path.drop ((path.findIdx? (· = i)).getD 0)))
      | some .unvisited =>
          parents[i]?.bind (walk parents (marks.set i .onPath) (path ++ [i])) := by
  rw [walk]
  split
  · next hmark => rw [hmark]
  · next hmark => rw [hmark]
  · next hmark => rw [hmark]
  · next hmark =>
      rw [hmark]
      cases parents[i]? <;> rfl

theorem walk_of_root : walk parents marks path none = some (.ok (marks, path)) := by
  rw [walk]

theorem walk_of_done (hi : marks[i]? = some .done) :
    walk parents marks path (some i) = some (.ok (marks, path)) := by
  rw [walk_some, hi]

/-- A node that is met again closes a cycle, which begins where the path met it first. -/
theorem walk_of_onPath (h : Marked parents path marks) (hi : marks[i]? = some .onPath) :
    walk parents marks path (some i) = some (.error (path.dropWhile (· ≠ i))) := by
  obtain ⟨front, back, rfl, hfirst⟩ := List.eq_append_cons_of_mem ((h.onPath_iff i).mp hi)
  rw [walk_some, hi]
  simp only [findIdx?_append_cons hfirst, Option.getD_some, List.drop_left,
    dropWhile_ne_append hfirst]

theorem walk_of_unvisited (h : Marked parents path marks) (hi : marks[i]? = some .unvisited) :
    walk parents marks path (some i) =
      walk parents (marks.set i .onPath) (path ++ [i]) (parentAt parents i) := by
  have hlength := h.length_eq ▸ (List.getElem?_eq_some_iff.mp hi).1
  have hparent : parents[i]? = some (parentAt parents i) := by
    rw [parentAt, List.getElem?_eq_getElem hlength]
    rfl
  rw [walk_some, hi]
  simp only [hparent, Option.bind_some]

/-! ## Whole walks -/

theorem Marked.walk_ends_of_done (h : Marked parents path marks) (hi : marks[i]? = some .done)
    (above : List Nat) :
    ∃ marks' front,
      walk parents marks path (some i) = some (.ok (marks', path ++ front)) ∧ front ⊆ above ∧
      Marked parents (path ++ front) marks' := by
  refine ⟨marks, [], ?_, List.nil_subset above, ?_⟩
  · rw [walk_of_done hi, List.append_nil]
  · rwa [List.append_nil]

/-- Where a way up leads to a root, a walk ends without a fault, after nodes of the way. -/
theorem walk_of_climb (h : Climb (parentAt parents) i above) (hmarked : Marked parents path marks)
    (hrange : ∀ x ∈ above, x < parents.length) (hnew : ∀ x ∈ above, x ∉ path) :
    ∃ marks' front,
      walk parents marks path (some i) = some (.ok (marks', path ++ front)) ∧ front ⊆ above ∧
      Marked parents (path ++ front) marks' := by
  induction h generalizing path marks with
  | @root i hroot =>
      rcases hmarked.mark_of_notMem (hrange i (by simp)) (hnew i (by simp)) with hi | hi
      · exact hmarked.walk_ends_of_done hi _
      · refine ⟨_, [i], ?_, List.Subset.refl _, hmarked.visit hi⟩
        rw [walk_of_unvisited hmarked hi, hroot, walk_of_root]
  | @step i b above hb hrest ih =>
      rcases hmarked.mark_of_notMem (hrange i (by simp)) (hnew i (by simp)) with hi | hi
      · exact hmarked.walk_ends_of_done hi _
      · have hnew' : ∀ x ∈ above, x ∉ path ++ [i] := by
          intro x hx hmem
          rcases List.mem_append.mp hmem with hmem | hmem
          · exact hnew x (List.mem_cons_of_mem i hx) hmem
          · exact hrest.notMem hb (List.mem_singleton.mp hmem ▸ hx)
        obtain ⟨marks', front, hwalk, hfront, hmarked'⟩ :=
          ih (hmarked.visit hi) (fun x hx => hrange x (List.mem_cons_of_mem i hx)) hnew'
        rw [List.append_assoc, List.singleton_append] at hwalk hmarked'
        refine ⟨marks', i :: front, ?_, List.cons_subset_cons i hfront, hmarked'⟩
        rw [walk_of_unvisited hmarked hi, hb, hwalk]

/-- Where no way up leads to a root, a walk runs into the cycle into which the way up runs. -/
theorem walk_of_no_climb {unseen : List Nat}
    (hnodes : ∀ x < parents.length, ∀ b, parentAt parents x = some b → b < parents.length)
    (h : ¬∃ above, Climb (parentAt parents) i above) (hi : i < parents.length)
    (hnodup : unseen.Nodup) :
    ∀ {path marks}, Marked parents path marks → (∀ x, x ∈ unseen ↔ x < parents.length ∧ x ∉ path) →
      ∃ b, (ascend (parentAt parents) unseen i).closing = some b ∧
        walk parents marks path (some i) =
          some (.error
            ((path ++ (ascend (parentAt parents) unseen i).path).dropWhile (· ≠ b))) := by
  fun_induction ascend (parentAt parents) unseen i with
  | case1 unseen i hmem hroot => exact absurd ⟨_, .root hroot⟩ h
  | case2 unseen i hmem b hb way ih =>
      intro path marks hmarked hunseen
      have hnew := ((hunseen i).mp hmem).2
      have hmark : marks[i]? = some .unvisited :=
        (hmarked.mark_of_notMem hi hnew).resolve_left fun hdone => h (hmarked.climbs i hdone)
      have hrest : ¬∃ above, Climb (parentAt parents) b above := by
        rintro ⟨above, habove⟩
        exact h ⟨i :: above, .step hb habove⟩
      have hunseen' : ∀ x, x ∈ unseen.erase i ↔ x < parents.length ∧ x ∉ path ++ [i] := by
        intro x
        rw [hnodup.mem_erase_iff, hunseen, List.mem_append, List.mem_singleton]
        tauto
      obtain ⟨c, hclosing, hwalk⟩ :=
        ih hrest (hnodes i hi b hb) (hnodup.erase i) (hmarked.visit hmark) hunseen'
      refine ⟨c, hclosing, ?_⟩
      rw [walk_of_unvisited hmarked hmark, hb, hwalk, List.append_assoc, List.singleton_append]
  | case3 unseen i hmem =>
      intro path marks hmarked hunseen
      have hpath : i ∈ path := by
        by_contra hnew
        exact hmem ((hunseen i).mpr ⟨hi, hnew⟩)
      refine ⟨i, rfl, ?_⟩
      rw [walk_of_onPath hmarked ((hmarked.onPath_iff i).mpr hpath), List.append_nil]

/-! ## The search -/

section Search

variable (hparents : ∀ parent ∈ parents, ∀ i ∈ parent, i < parents.length)

include hparents

theorem parentAt_lt {b : Nat} (hb : parentAt parents i = some b) : b < parents.length := by
  obtain ⟨parent, hparent, rfl⟩ : ∃ parent, parents[i]? = some parent ∧ parent = some b := by
    simpa [parentAt, Option.join_eq_some_iff] using hb
  exact hparents _ (List.mem_of_getElem? hparent) b rfl

theorem parentAt_mem_range :
    ∀ i ∈ List.range parents.length,
      ∀ b, parentAt parents i = some b → b ∈ List.range parents.length :=
  fun _ _ _ hb => List.mem_range.mpr (parentAt_lt hparents hb)

theorem searchFrom_eq {rest : List Nat} (hmarked : Marked parents [] marks)
    (hrest : ∀ i ∈ rest, i < parents.length) :
    searchFrom parents marks rest =
      some (rest.findSome? (cycleAbove? (parentAt parents) (List.range parents.length))) := by
  have hnodes := parentAt_mem_range hparents
  induction rest generalizing marks with
  | nil => rfl
  | cons i rest ih =>
      obtain ⟨hi, hrest⟩ := List.forall_mem_cons.mp hrest
      have hmem : i ∈ List.range parents.length := List.mem_range.mpr hi
      by_cases hclimb : ∃ above, Climb (parentAt parents) i above
      · obtain ⟨above, habove⟩ := hclimb
        have hrange : ∀ x ∈ above, x < parents.length := fun x hx =>
          List.mem_range.mp (mem_of_reflTransGen hnodes hmem (habove.mem_iff.mp hx))
        obtain ⟨marks', front, hwalk, hfront, hmarked'⟩ :=
          walk_of_climb habove hmarked hrange fun _ _ => List.not_mem_nil
        have hclimbs : ∀ x ∈ [] ++ front, ∃ above, Climb (parentAt parents) x above := fun x hx =>
          (habove.of_mem (hfront hx)).imp fun _ h => h.1
        obtain ⟨marks'', hsettle, hmarked''⟩ := hmarked'.settle hclimbs
        rw [searchFrom, hwalk]
        simp only [hsettle, Option.bind_some]
        rw [ih hmarked'' hrest, List.findSome?_cons, cycleAbove?_of_climb hnodes hmem habove]
      · have hunseen : ∀ x, x ∈ List.range parents.length ↔ x < parents.length ∧ x ∉ [] := by simp
        obtain ⟨b, hclosing, hwalk⟩ :=
          walk_of_no_climb (fun x _ b hb => parentAt_lt hparents hb) hclimb hi
          List.nodup_range hmarked hunseen
        rw [searchFrom, hwalk, List.findSome?_cons, cycleAbove?_of_closing hclosing]
        rfl

/-- The search by marks looks up no mark and no parent that is not there, and it finds what the
search by ways up finds. -/
theorem cycleByMarks?_eq :
    cycleByMarks? parents = some (cycle? (parentAt parents) (List.range parents.length)) :=
  searchFrom_eq hparents (Marked.start parents) (by simp)

end Search

end ShardKeys
