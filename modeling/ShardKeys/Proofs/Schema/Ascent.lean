import Mathlib.Data.List.Basic
import ShardKeys.Schema.Ascent

/-! # Putting parents first

A way up that closes no cycle is a chain from a node to a root, and it never meets a node twice.
Emptied from the root down, such chains put every parent in front of its children, however many of
their nodes were placed before.
-/

namespace ShardKeys

variable {α β : Type}

/-! ## Lists in which every entry is ready -/

/-- Every entry of a list is ready when its turn comes; `ready done a` says that `a` may follow
`done`. -/
def ReadyOrder (ready : List α → α → Prop) : List α → List α → Prop
  | _, [] => True
  | done, a :: rest => ready done a ∧ ReadyOrder ready (done ++ [a]) rest

namespace ReadyOrder

variable {ready : List α → α → Prop} {done xs ys : List α} {a : α}

@[simp] theorem nil : ReadyOrder ready done [] := trivial

theorem append_iff :
    ReadyOrder ready done (xs ++ ys) ↔
      ReadyOrder ready done xs ∧ ReadyOrder ready (done ++ xs) ys := by
  induction xs generalizing done with
  | nil => simp [ReadyOrder]
  | cons x xs ih => simp [ReadyOrder, ih, and_assoc]

theorem ready_of_append (h : ReadyOrder ready done (xs ++ a :: ys)) : ready (done ++ xs) a :=
  (append_iff.mp h).2.1

theorem of_forall (h : ∀ a ∈ xs, ∀ more, ready (done ++ more) a) : ReadyOrder ready done xs := by
  induction xs generalizing done with
  | nil => trivial
  | cons x xs ih =>
      refine ⟨by simpa using h x List.mem_cons_self [], ih ?_⟩
      intro a ha more
      rw [List.append_assoc]
      exact h a (List.mem_cons_of_mem x ha) ([x] ++ more)

theorem map {ready' : List β → β → Prop} {f : α → β} {front : List β} (h : ReadyOrder ready done xs)
    (hf : ∀ done, ∀ a ∈ xs, ready done a → ready' (front ++ done.map f) (f a)) :
    ReadyOrder ready' (front ++ done.map f) (xs.map f) := by
  induction xs generalizing done with
  | nil => trivial
  | cons x xs ih =>
      refine ⟨hf done x List.mem_cons_self h.1, ?_⟩
      simpa using ih h.2 fun done a ha => hf done a (List.mem_cons_of_mem x ha)

theorem pairwise {R : α → α → Prop} (h : ReadyOrder ready done xs)
    (hR : ∀ done a more b, ready done a → ready (done ++ a :: more) b → R a b) : xs.Pairwise R := by
  induction xs generalizing done with
  | nil => exact .nil
  | cons x xs ih =>
      refine List.pairwise_cons.mpr ⟨?_, ih h.2⟩
      intro y hy
      obtain ⟨front, back, rfl⟩ := List.append_of_mem hy
      have hready := ready_of_append h.2
      rw [List.append_assoc] at hready
      exact hR done x front y h.1 hready

end ReadyOrder

/-! ## Ways up -/

variable {parent : α → Option α} {a b x : α} {path nodes placed : List α}

/-- A way up to a root: every node is followed by its parent. -/
inductive Climb (parent : α → Option α) : α → List α → Prop
  | root {a : α} (h : parent a = none) : Climb parent a [a]
  | step {a b : α} {path : List α} (h : parent a = some b) :
      Climb parent b path → Climb parent a (a :: path)

namespace Climb

theorem unique {path' : List α} (h : Climb parent a path) (h' : Climb parent a path') :
    path = path' := by
  induction h generalizing path' with
  | root h =>
      cases h' with
      | root => rfl
      | step hb => simp [h] at hb
  | step h _ ih =>
      cases h' with
      | root hroot => simp [h] at hroot
      | step hb hrest =>
          obtain rfl := Option.some.inj (h.symm.trans hb)
          rw [ih hrest]

/-- From every node that it meets, the way goes on as the way up from that node. -/
theorem of_mem (h : Climb parent a path) (hx : x ∈ path) :
    ∃ above, Climb parent x above ∧ above.length ≤ path.length := by
  induction h with
  | @root a h =>
      obtain rfl := List.mem_singleton.mp hx
      exact ⟨[x], .root h, Nat.le_refl _⟩
  | @step a b path h hrest ih =>
      rcases List.mem_cons.mp hx with rfl | hx
      · exact ⟨x :: path, .step h hrest, Nat.le_refl _⟩
      · obtain ⟨above, habove, hlength⟩ := ih hx
        exact ⟨above, habove, Nat.le_succ_of_le hlength⟩

/-- A node is not met again above its parent: the way would be longer than itself. -/
theorem notMem (h : Climb parent b path) (hab : parent a = some b) : a ∉ path := by
  intro ha
  obtain ⟨above, habove, hlength⟩ := h.of_mem ha
  rw [habove.unique (.step hab h), List.length_cons] at hlength
  omega

end Climb

variable [DecidableEq α]

theorem ascend_climb {unseen : List α} (h : (ascend parent unseen a).closing = none) :
    Climb parent a (ascend parent unseen a).path := by
  fun_induction ascend parent unseen a with
  | case1 unseen a ha hroot => exact .root hroot
  | case2 unseen a ha b hb above ih => exact .step hb (ih h)
  | case3 unseen a ha => simp at h

theorem mem_of_mem_ascend {unseen : List α} (hx : x ∈ (ascend parent unseen a).path) :
    x ∈ unseen := by
  fun_induction ascend parent unseen a with
  | case1 unseen a ha hroot =>
      obtain rfl := List.mem_singleton.mp hx
      exact ha
  | case2 unseen a ha b hb above ih =>
      rcases List.mem_cons.mp hx with rfl | hx
      · exact ha
      · exact List.mem_of_mem_erase (ih hx)
  | case3 unseen a ha => simp at hx

theorem cycle?_eq_none_iff :
    cycle? parent nodes = none ↔ ∀ a ∈ nodes, (ascend parent nodes a).closing = none := by
  simp [cycle?, List.findSome?_eq_none_iff]

/-! ## Placing nodes -/

/-- A node that has no place yet may follow its parent. -/
def MayFollow (parent : α → Option α) (done : List α) (a : α) : Prop :=
  a ∉ done ∧ ∀ b, parent a = some b → b ∈ done

/-- What a chain adds to nodes in order, root first, keeps them in order. -/
theorem Climb.place (h : Climb parent a path) (hplaced : ReadyOrder (MayFollow parent) [] placed) :
    ReadyOrder (MayFollow parent) [] (placed ++ (path.takeWhile (· ∉ placed)).reverse) ∧
      a ∈ placed ++ (path.takeWhile (· ∉ placed)).reverse := by
  induction h with
  | @root a h =>
      by_cases ha : a ∈ placed
      · simp [ha, hplaced]
      · simp [ha, ReadyOrder.append_iff, hplaced, ReadyOrder, MayFollow, h]
  | @step a b path h hrest ih =>
      by_cases ha : a ∈ placed
      · simp [ha, hplaced]
      · obtain ⟨horder, hb⟩ := ih
        have hnew : a ∉ placed ++ (path.takeWhile (· ∉ placed)).reverse := by
          rw [List.mem_append, List.mem_reverse, not_or]
          exact ⟨ha, fun hmem => hrest.notMem h (List.takeWhile_sublist _ |>.mem hmem)⟩
        rw [List.takeWhile_cons_of_pos (by simpa using ha), List.reverse_cons, ← List.append_assoc]
        refine ⟨ReadyOrder.append_iff.mpr ⟨horder, ⟨hnew, ?_⟩, trivial⟩, by simp⟩
        intro c hc
        obtain rfl := Option.some.inj (h.symm.trans hc)
        exact hb

theorem prefix_foldl_placeAfterAncestors (parent : α → Option α) (nodes rest placed : List α) :
    placed <+: rest.foldl (placeAfterAncestors parent nodes) placed := by
  induction rest generalizing placed with
  | nil => exact List.prefix_refl placed
  | cons a rest ih => exact (List.prefix_append placed _).trans (ih _)

theorem foldl_placeAfterAncestors {rest : List α}
    (hrest : ∀ a ∈ rest, (ascend parent nodes a).closing = none)
    (hplaced : ReadyOrder (MayFollow parent) [] placed) :
    ReadyOrder (MayFollow parent) [] (rest.foldl (placeAfterAncestors parent nodes) placed) ∧
      ∀ x, (x ∈ placed ∨ x ∈ rest → x ∈ rest.foldl (placeAfterAncestors parent nodes) placed) ∧
        (x ∈ rest.foldl (placeAfterAncestors parent nodes) placed → x ∈ placed ∨ x ∈ nodes) := by
  induction rest generalizing placed with
  | nil => exact ⟨hplaced, fun x => ⟨by simp, .inl⟩⟩
  | cons a rest ih =>
      obtain ⟨ha, hrest⟩ := List.forall_mem_cons.mp hrest
      obtain ⟨hplaced', hmem⟩ := (ascend_climb ha).place hplaced
      obtain ⟨horder, hbounds⟩ := ih hrest hplaced'
      refine ⟨horder, fun x => ⟨?_, ?_⟩⟩
      · rintro (hx | hx)
        · exact (hbounds x).1 (.inl (List.mem_append_left _ hx))
        · rcases List.mem_cons.mp hx with rfl | hx
          · exact (hbounds x).1 (.inl hmem)
          · exact (hbounds x).1 (.inr hx)
      · intro hx
        rcases (hbounds x).2 hx with hx | hx
        · rcases List.mem_append.mp hx with hx | hx
          · exact .inl hx
          · exact .inr (mem_of_mem_ascend
              ((List.takeWhile_sublist _).mem (List.mem_reverse.mp hx)))
        · exact .inr hx

theorem parentsFirst_readyOrder (h : cycle? parent nodes = none) :
    ReadyOrder (MayFollow parent) [] (parentsFirst parent nodes) :=
  (foldl_placeAfterAncestors (cycle?_eq_none_iff.mp h) ReadyOrder.nil).1

theorem parentsFirst_perm (h : cycle? parent nodes = none) (hnodes : nodes.Nodup) :
    (parentsFirst parent nodes).Perm nodes := by
  have hnodup : (parentsFirst parent nodes).Nodup := by
    refine (parentsFirst_readyOrder h).pairwise ?_
    rintro done a more b - hb rfl
    exact hb.1 (by simp)
  refine (List.perm_ext_iff_of_nodup hnodup hnodes).mpr fun x => ?_
  have hbounds := (foldl_placeAfterAncestors (cycle?_eq_none_iff.mp h) ReadyOrder.nil).2 x
  constructor
  · intro hx
    exact (hbounds.2 hx).resolve_left List.not_mem_nil
  · intro hx
    exact hbounds.1 (.inr hx)

/-! ## Placing nodes with an eye on cycles -/

theorem ascendToPlaced_eq {unseen : List α} (h : (ascend parent unseen a).closing = none) :
    ascendToPlaced parent placed unseen a =
      .ok ((ascend parent unseen a).path.takeWhile (· ∉ placed)) := by
  fun_induction ascend parent unseen a with
  | case1 unseen a ha hroot =>
      rw [ascendToPlaced]
      by_cases hplaced : a ∈ placed <;> simp [ha, hroot, hplaced]
  | case2 unseen a ha b hb above ih =>
      rw [ascendToPlaced]
      by_cases hplaced : a ∈ placed
      · simp [hplaced]
      · simp [ha, hb, hplaced, ih h, above]
  | case3 unseen a ha => simp at h

/-- Where there is no cycle, none is found on the way either. -/
theorem parentsFirst?_eq (h : cycle? parent nodes = none) :
    parentsFirst? parent nodes = .ok (parentsFirst parent nodes) := by
  have hways := cycle?_eq_none_iff.mp h
  have hplace : ∀ rest ⊆ nodes, ∀ placed,
      rest.foldlM (fun placed a => (ascendToPlaced parent placed nodes a).map (placed ++ ·.reverse))
        placed =
        .ok (rest.foldl (placeAfterAncestors parent nodes) placed) := by
    intro rest
    induction rest with
    | nil => exact fun _ _ => rfl
    | cons a rest ih =>
        intro hsubset placed
        obtain ⟨ha, hrest⟩ := List.cons_subset.mp hsubset
        rw [List.foldlM_cons, ascendToPlaced_eq (hways a ha)]
        exact ih hrest _
  exact hplace nodes (List.Subset.refl _) []

end ShardKeys
