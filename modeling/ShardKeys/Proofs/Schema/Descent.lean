import Mathlib.Logic.Relation
import ShardKeys.Proofs.Schema.Ascent

/-! # Ancestors and cycles

A node descends from the nodes to which steps from parent to parent lead. A way up to a root meets
just the node and its ancestors; where there is none, the way up runs into a node that descends from
itself.
-/

namespace ShardKeys

open Relation

variable {α : Type} {parent : α → Option α} {a b x : α} {path nodes : List α}

/-- One step up or more lead from `a` to `b`. -/
def Descends (parent : α → Option α) : α → α → Prop :=
  TransGen fun a b => parent a = some b

/-- The ancestors of a node are its parent and the ancestors of the parent. -/
theorem descends_iff :
    Descends parent a x ↔
      ∃ b, parent a = some b ∧ ReflTransGen (fun a b => parent a = some b) b x :=
  TransGen.head'_iff

theorem not_descends_of_root (h : parent a = none) : ¬Descends parent a x := by
  simp [descends_iff, h]

namespace Climb

theorem mem_iff (h : Climb parent a path) :
    x ∈ path ↔ ReflTransGen (fun a b => parent a = some b) a x := by
  induction h with
  | root h =>
      rw [List.mem_singleton, ReflTransGen.cases_head_iff, eq_comm]
      simp [h]
  | @step a b path h _ ih =>
      rw [List.mem_cons, ih, ReflTransGen.cases_head_iff (a := a), eq_comm]
      simp [h]

theorem descends_iff_mem (h : Climb parent b path) (hab : parent a = some b) :
    Descends parent a x ↔ x ∈ path := by
  simp [descends_iff, hab, h.mem_iff]

theorem not_descends_self (h : Climb parent a path) : ¬Descends parent a a := by
  cases h with
  | root hroot => exact not_descends_of_root hroot
  | step hab hrest => exact fun ha => hrest.notMem hab ((hrest.descends_iff_mem hab).mp ha)

end Climb

/-! ## Ways up that close a cycle -/

theorem mem_of_reflTransGen (hnodes : ∀ a ∈ nodes, ∀ b, parent a = some b → b ∈ nodes)
    (ha : a ∈ nodes)
    (h : ReflTransGen (fun a b => parent a = some b) a x) : x ∈ nodes := by
  induction h with
  | refl => exact ha
  | tail _ hstep hmem => exact hnodes _ hmem _ hstep

variable [DecidableEq α]

/-- The node that a way up would meet again descends from itself, unless it was met before the way
began. -/
theorem ascend_closing {unseen : List α} (h : (ascend parent unseen a).closing = some x) :
    ReflTransGen (fun a b => parent a = some b) a x ∧ (x ∈ unseen → Descends parent x x) := by
  fun_induction ascend parent unseen a with
  | case1 unseen a ha hroot => simp at h
  | case2 unseen a ha b hb above ih =>
      obtain ⟨hreach, hcycle⟩ := ih h
      refine ⟨hreach.head hb, fun hx => ?_⟩
      by_cases hxa : x = a
      · subst hxa
        exact descends_iff.mpr ⟨b, hb, hreach⟩
      · exact hcycle ((List.mem_erase_of_ne hxa).mpr hx)
  | case3 unseen a ha =>
      obtain rfl := Option.some.inj h
      exact ⟨.refl, fun hx => absurd hx ha⟩

/-- Among nodes that hold the parents of all of them, no cycle is found just if no node descends
from itself. -/
theorem cycle?_eq_none_iff_acyclic (hnodes : ∀ a ∈ nodes, ∀ b, parent a = some b → b ∈ nodes) :
    cycle? parent nodes = none ↔ ∀ a ∈ nodes, ¬Descends parent a a := by
  rw [cycle?_eq_none_iff]
  constructor
  · intro h a ha
    exact (ascend_climb (h a ha)).not_descends_self
  · intro h a ha
    by_contra hclosing
    obtain ⟨x, hx⟩ := Option.ne_none_iff_exists'.mp hclosing
    obtain ⟨hreach, hcycle⟩ := ascend_closing hx
    have hmem := mem_of_reflTransGen hnodes ha hreach
    exact h x hmem (hcycle hmem)

/-! ## Lineages -/

theorem exists_climb (h : cycle? parent nodes = none) (ha : a ∈ nodes) :
    ∃ path, Climb parent a path ∧ lineage parent nodes a = path.reverse :=
  ⟨_, ascend_climb (cycle?_eq_none_iff.mp h a ha), rfl⟩

end ShardKeys
