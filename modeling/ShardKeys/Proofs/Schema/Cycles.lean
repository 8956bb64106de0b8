import Mathlib.Data.List.Chain
import Mathlib.Data.List.Nodup
import ShardKeys.Proofs.Schema.Descent

/-! # Cycles -/

namespace ShardKeys

open Relation

variable {α β : Type} {parent : α → Option α} {a b x : α} {path nodes unseen : List α}

/-- A cycle, read upwards: every member is followed by its parent, and the parent of the last is the
first. -/
structure IsCycle (parent : α → Option α) (path : List α) : Prop where
  nonempty : path ≠ []
  nodup : path.Nodup
  steps : path.IsChain fun a b => parent a = some b
  closes : ∀ a ∈ path.getLast?, parent a = path.head?

namespace IsCycle

theorem exists_ends (h : IsCycle parent path) :
    ∃ first last,
      path.head? = some first ∧ path.getLast? = some last ∧ parent last = some first := by
  obtain ⟨first, hfirst⟩ := Option.isSome_iff_exists.mp (List.isSome_head?.mpr h.nonempty)
  obtain ⟨last, hlast⟩ := List.getLast?_isSome.mpr h.nonempty |> Option.isSome_iff_exists.mp
  exact ⟨first, last, hfirst, hlast, (h.closes last hlast).trans hfirst⟩

theorem pairwise_descends (h : IsCycle parent path) : path.Pairwise (Descends parent) :=
  (h.steps.imp fun _ _ hstep => TransGen.single hstep).pairwise

theorem descends (h : IsCycle parent path) (ha : a ∈ path) (hx : x ∈ path) :
    Descends parent a x := by
  obtain ⟨first, last, hfirst, hlast, hstep⟩ := h.exists_ends
  have hup : ReflTransGen (fun a b => parent a = some b) a last := by
    obtain ⟨front, rfl⟩ := List.getLast?_eq_some_iff.mp hlast
    rcases List.mem_append.mp ha with ha | ha
    · have := (List.pairwise_append.mp h.pairwise_descends).2.2 a ha last (by simp)
      exact this.to_reflTransGen
    · rw [List.mem_singleton.mp ha]
  have hdown : ReflTransGen (fun a b => parent a = some b) first x := by
    obtain ⟨rest, rfl⟩ := List.head?_eq_some_iff.mp hfirst
    rcases List.mem_cons.mp hx with rfl | hx
    · exact .refl
    · exact ((List.pairwise_cons.mp h.pairwise_descends).1 x hx).to_reflTransGen
  exact (TransGen.tail' hup hstep).trans_left hdown

theorem parent_mem (h : IsCycle parent path) (ha : a ∈ path) (hb : parent a = some b) :
    b ∈ path := by
  obtain ⟨front, back, rfl⟩ := List.append_of_mem ha
  cases back with
  | nil =>
      have hhead := h.closes a (by simp)
      exact List.mem_of_mem_head? (hhead ▸ hb)
  | cons c back =>
      have hstep := (List.isChain_cons_cons.mp (List.isChain_append.mp h.steps).2.1).1
      obtain rfl := Option.some.inj (hb.symm.trans hstep)
      simp

theorem descends_iff_mem (h : IsCycle parent path) (ha : a ∈ path) :
    Descends parent a x ↔ x ∈ path := by
  refine ⟨fun hx => ?_, h.descends ha⟩
  obtain ⟨b, hb, hreach⟩ := descends_iff.mp hx
  exact mem_of_reflTransGen (fun a ha b hb => h.parent_mem ha hb) (h.parent_mem ha hb) hreach

end IsCycle

theorem findSome?_congr {p q : α → Option β} (h : ∀ a ∈ nodes, p a = q a) :
    nodes.findSome? p = nodes.findSome? q := by
  induction nodes with
  | nil => rfl
  | cons a nodes ih =>
      obtain ⟨ha, hnodes⟩ := List.forall_mem_cons.mp h
      rw [List.findSome?_cons, List.findSome?_cons, ha, ih hnodes]

variable [DecidableEq α]

theorem nodup_ascend (h : unseen.Nodup) : (ascend parent unseen a).path.Nodup := by
  fun_induction ascend parent unseen a with
  | case1 unseen a ha hroot => exact List.nodup_singleton a
  | case2 unseen a ha b hb above ih =>
      refine List.nodup_cons.mpr ⟨fun hmem => ?_, ih (h.erase a)⟩
      exact h.not_mem_erase (mem_of_mem_ascend hmem)
  | case3 unseen a ha => exact List.nodup_nil

/-- A way up that would meet a node again leads on to it. -/
theorem ascend_isChain (h : (ascend parent unseen a).closing = some b) :
    ((ascend parent unseen a).path ++ [b]).head? = some a ∧
      ((ascend parent unseen a).path ++ [b]).IsChain fun a b => parent a = some b := by
  fun_induction ascend parent unseen a with
  | case1 unseen a ha hroot => simp at h
  | case2 unseen a ha c hc above ih =>
      obtain ⟨hhead, hchain⟩ := ih h
      refine ⟨rfl, List.isChain_cons.mpr ⟨?_, hchain⟩⟩
      intro d hd
      obtain rfl := Option.some.inj (hhead.symm.trans hd)
      exact hc
  | case3 unseen a ha =>
      obtain rfl := Option.some.inj h
      exact ⟨rfl, List.isChain_singleton _⟩

theorem closing_mem_ascend (h : (ascend parent unseen a).closing = some b) (hb : b ∈ unseen) :
    b ∈ (ascend parent unseen a).path := by
  fun_induction ascend parent unseen a with
  | case1 unseen a ha hroot => simp at h
  | case2 unseen a ha c hc above ih =>
      by_cases hba : b = a
      · exact hba ▸ List.mem_cons_self
      · exact List.mem_cons_of_mem a (ih h ((List.mem_erase_of_ne hba).mpr hb))
  | case3 unseen a ha =>
      obtain rfl := Option.some.inj h
      exact absurd hb ha

theorem dropWhile_ne_append {front back : List α} (h : b ∉ front) :
    (front ++ b :: back).dropWhile (· ≠ b) = b :: back := by
  rw [List.dropWhile_append_of_pos, List.dropWhile_cons_of_neg (by simp)]
  intro c hc
  simpa using fun hcb : c = b => h (hcb ▸ hc)

/-- What lies between the two meetings with a node is a cycle; the way to the first meeting is cut
off. -/
theorem isCycle_of_ascend (hnodup : nodes.Nodup) (h : (ascend parent nodes a).closing = some b)
    (hb : b ∈ nodes) : IsCycle parent ((ascend parent nodes a).path.dropWhile (· ≠ b)) := by
  have hunique : (ascend parent nodes a).path.Nodup := nodup_ascend hnodup
  have hchain := (ascend_isChain h).2
  obtain ⟨front, back, hpath, hfirst⟩ := List.eq_append_cons_of_mem (closing_mem_ascend h hb)
  rw [hpath] at hunique hchain
  rw [List.append_assoc] at hchain
  obtain ⟨hsteps, -, hlast⟩ := List.isChain_append.mp (List.isChain_append.mp hchain).2.1
  rw [hpath, dropWhile_ne_append hfirst]
  exact
    { nonempty := List.cons_ne_nil b back
      nodup := hunique.of_append_right
      steps := hsteps
      closes := fun last hmem => hlast last hmem b rfl }

/-- The cycle into which the way up from a node runs. -/
def cycleAbove? (parent : α → Option α) (nodes : List α) (a : α) : Option (List α) :=
  (ascend parent nodes a).closing.map fun b => (ascend parent nodes a).path.dropWhile (· ≠ b)

theorem cycle?_eq_findSome? :
    cycle? parent nodes = nodes.findSome? (cycleAbove? parent nodes) := rfl

theorem cycleAbove?_of_closing (h : (ascend parent nodes a).closing = some b) :
    cycleAbove? parent nodes a = some ((ascend parent nodes a).path.dropWhile (· ≠ b)) := by
  rw [cycleAbove?, h, Option.map_some]

section Closed

variable (hnodes : ∀ a ∈ nodes, ∀ b, parent a = some b → b ∈ nodes)

include hnodes

theorem isCycle_of_cycle? (hnodup : nodes.Nodup) (h : cycle? parent nodes = some path) :
    IsCycle parent path ∧ path ⊆ nodes := by
  rw [cycle?_eq_findSome?] at h
  obtain ⟨a, ha, hway⟩ := List.exists_of_findSome?_eq_some h
  obtain ⟨b, hclosing, rfl⟩ := Option.map_eq_some_iff.mp hway
  have hb : b ∈ nodes := mem_of_reflTransGen hnodes ha (ascend_closing hclosing).1
  refine ⟨isCycle_of_ascend hnodup hclosing hb, fun x hx => ?_⟩
  exact mem_of_mem_ascend ((List.dropWhile_sublist _).mem hx)

theorem closing_of_climb (ha : a ∈ nodes) (h : Climb parent a path) :
    (ascend parent nodes a).closing = none := by
  by_contra hclosing
  obtain ⟨x, hx⟩ := Option.ne_none_iff_exists'.mp hclosing
  obtain ⟨hreach, hcycle⟩ := ascend_closing hx
  obtain ⟨above, habove, -⟩ := h.of_mem (h.mem_iff.mpr hreach)
  exact habove.not_descends_self (hcycle (mem_of_reflTransGen hnodes ha hreach))

theorem cycleAbove?_of_climb (ha : a ∈ nodes) (h : Climb parent a path) :
    cycleAbove? parent nodes a = none := by
  rw [cycleAbove?, closing_of_climb hnodes ha h, Option.map_none]

theorem cycle?_eq_none_iff_climb :
    cycle? parent nodes = none ↔ ∀ a ∈ nodes, ∃ path, Climb parent a path := by
  rw [cycle?_eq_none_iff]
  constructor
  · exact fun h a ha => ⟨_, ascend_climb (h a ha)⟩
  · intro h a ha
    obtain ⟨path, hpath⟩ := h a ha
    exact closing_of_climb hnodes ha hpath

end Closed

/-! ## Other names for the nodes -/

section Renaming

variable [DecidableEq β] {parent' : β → Option β} {f : α → β}
variable (hinj : ∀ a ∈ nodes, ∀ b ∈ nodes, f a = f b → a = b)
variable (hnodes : ∀ a ∈ nodes, ∀ b, parent a = some b → b ∈ nodes)
variable (hparent : ∀ a ∈ nodes, parent' (f a) = (parent a).map f)

include hinj in
theorem map_erase_of_injective (hunseen : unseen ⊆ nodes) (ha : a ∈ nodes) :
    (unseen.erase a).map f = (unseen.map f).erase (f a) := by
  induction unseen with
  | nil => rfl
  | cons c rest ih =>
      obtain ⟨hc, hrest⟩ := List.cons_subset.mp hunseen
      by_cases hca : c = a
      · simp [hca]
      · have hne : f c ≠ f a := fun hf => hca (hinj c hc a ha hf)
        rw [List.erase_cons_tail (by simpa using hca), List.map_cons, List.map_cons,
          List.erase_cons_tail (by simpa using hne), ih hrest]

include hinj hnodes hparent

theorem ascend_map (hunseen : unseen ⊆ nodes) (ha : a ∈ nodes) :
    ascend parent' (unseen.map f) (f a) =
      ⟨(ascend parent unseen a).path.map f, (ascend parent unseen a).closing.map f⟩ := by
  fun_induction ascend parent unseen a with
  | case1 unseen a hmem hroot =>
      have hmem' : f a ∈ unseen.map f := List.mem_map_of_mem hmem
      have hroot' : parent' (f a) = none := by rw [hparent a ha, hroot, Option.map_none]
      rw [ascend, dif_pos hmem']
      simp [hroot']
  | case2 unseen a hmem b hb above ih =>
      have hmem' : f a ∈ unseen.map f := List.mem_map_of_mem hmem
      have hb' : parent' (f a) = some (f b) := by rw [hparent a ha, hb, Option.map_some]
      have hrest := ih (fun x hx => hunseen (List.mem_of_mem_erase hx)) (hnodes a ha b hb)
      rw [map_erase_of_injective hinj hunseen ha] at hrest
      rw [ascend, dif_pos hmem']
      simp [hb', hrest, above]
  | case3 unseen a hmem =>
      have hmem' : f a ∉ unseen.map f := by
        rintro hmap
        obtain ⟨b, hb, hf⟩ := List.mem_map.mp hmap
        exact hmem (hinj b (hunseen hb) a ha hf ▸ hb)
      rw [ascend, dif_neg hmem']
      simp

theorem cycleAbove?_map (ha : a ∈ nodes) :
    cycleAbove? parent' (nodes.map f) (f a) = (cycleAbove? parent nodes a).map (·.map f) := by
  unfold cycleAbove?
  rw [ascend_map hinj hnodes hparent (List.Subset.refl nodes) ha]
  cases hclosing : (ascend parent nodes a).closing with
  | none => rfl
  | some b =>
      have hb : b ∈ nodes := mem_of_reflTransGen hnodes ha (ascend_closing hclosing).1
      have hpath := fun c (hc : c ∈ (ascend parent nodes a).path) => mem_of_mem_ascend hc
      obtain ⟨front, back, hsplit, hfirst⟩ :=
        List.eq_append_cons_of_mem (closing_mem_ascend hclosing hb)
      rw [hsplit] at hpath
      have hfirst' : f b ∉ front.map f := by
        intro hmap
        obtain ⟨c, hc, hf⟩ := List.mem_map.mp hmap
        exact hfirst (hinj c (hpath c (List.mem_append_left _ hc)) b hb hf ▸ hc)
      simp only [hsplit, List.map_append, List.map_cons, Option.map_some,
        dropWhile_ne_append hfirst, dropWhile_ne_append hfirst']

/-- The search finds the same cycle under other names of the nodes. -/
theorem cycle?_map : cycle? parent' (nodes.map f) = (cycle? parent nodes).map (·.map f) := by
  rw [cycle?_eq_findSome?, cycle?_eq_findSome?, List.findSome?_map, List.map_findSome?]
  exact findSome?_congr fun a ha => cycleAbove?_map hinj hnodes hparent ha

end Renaming

end ShardKeys
