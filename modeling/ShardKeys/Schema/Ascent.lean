/-!
Going up from node to parent. Each step draws its node from a list of nodes not yet met; a node that
is no longer in the list was met before, and closes a cycle. Where no way up closes, the nodes can
be put in an order in which every parent comes before its children.
-/

namespace ShardKeys

/-- A way up: the nodes it meets, and the node that it would meet again. -/
structure Ascent (α : Type) where
  path : List α
  closing : Option α
  deriving DecidableEq, Repr

variable {α : Type} [DecidableEq α]

/-- The way up from a node through nodes of a list. -/
def ascend (parent : α → Option α) (unseen : List α) (a : α) : Ascent α :=
  if _h : a ∈ unseen then
    match parent a with
    | none => ⟨[a], none⟩
    | some b =>
        let above := ascend parent (unseen.erase a) b
        ⟨a :: above.path, above.closing⟩
  else ⟨[], some a⟩
termination_by unseen.length
decreasing_by
  have := List.length_pos_of_mem _h
  rw [List.length_erase_of_mem _h]
  omega

/-- The members of a cycle, each followed by its parent: the first cycle that a way up from a node
of the list runs into, from the node at which the way enters it. -/
def cycle? (parent : α → Option α) (nodes : List α) : Option (List α) :=
  nodes.findSome? fun a =>
    let way := ascend parent nodes a
    way.closing.map fun b => way.path.dropWhile (· ≠ b)

/-- The nodes from the root down to a node. -/
def lineage (parent : α → Option α) (nodes : List α) (a : α) : List α :=
  (ascend parent nodes a).path.reverse

/-- Places a node behind those of its ancestors that have no place yet, root first. -/
def placeAfterAncestors (parent : α → Option α) (nodes placed : List α) (a : α) : List α :=
  placed ++ ((ascend parent nodes a).path.takeWhile (· ∉ placed)).reverse

/-- Every node in the order of the list, but right behind the ancestors that it has to follow. -/
def parentsFirst (parent : α → Option α) (nodes : List α) : List α :=
  nodes.foldl (placeAfterAncestors parent nodes) []

/-- The way up from a node to the first that has a place, or to a root. A way that would meet a node
again is given up, with the nodes that it met. -/
def ascendToPlaced (parent : α → Option α) (placed unseen : List α) (a : α) :
    Except (List α) (List α) :=
  if a ∈ placed then .ok []
  else if _h : a ∈ unseen then
    match parent a with
    | none => .ok [a]
    | some b =>
        match ascendToPlaced parent placed (unseen.erase a) b with
        | .ok above => .ok (a :: above)
        | .error met => .error (a :: met)
  else .error []
termination_by unseen.length
decreasing_by
  have := List.length_pos_of_mem _h
  rw [List.length_erase_of_mem _h]
  omega

/-- The order that puts parents first, for nodes that may lie on a cycle. -/
def parentsFirst? (parent : α → Option α) (nodes : List α) : Except (List α) (List α) :=
  nodes.foldlM (fun placed a => (ascendToPlaced parent placed nodes a).map (placed ++ ·.reverse)) []

end ShardKeys
