import ShardKeys.Proofs.Schema.Faultless
import ShardKeys.Proofs.Schema.Layout

/-! # Layouts that are kept

A layout is made of the one above it, so the layouts that are known are kept, and a way up stops at
the first table whose layout is known. From there the layouts of the way are made downwards, up to
the first key with a column that has no definition.
-/

namespace ShardKeys

/-- The layout that is kept for a table. -/
def kept? (known : List (Table × Layout)) (t : Table) : Option Layout :=
  (known.find? (·.1 = t)).map (·.2)

/-- Makes the layout of a table of the one that is kept for its parent, and keeps it. -/
def keepLayout (tables : List Table) (known : List (Table × Layout)) (t : Table) :
    Except SchemaFault (List (Table × Layout)) :=
  let layout := (((parentIn? tables t).bind (kept? known)).getD {}).below t
  match layout.undeclared? with
  | some c => .error (.undeclaredKey t.name c)
  | none => .ok (known ++ [(t, layout)])

/-- Makes and keeps the layouts on the way up from each table of a list. There is no answer if a way
up would meet a table again. -/
def keepLayouts? (tables : List Table) (known : List (Table × Layout)) :
    List Table → Option (Except SchemaFault (List (Table × Layout)))
  | [] => some (.ok known)
  | t :: rest =>
      match ascendToPlaced (parentIn? tables) (known.map (·.1)) tables t with
      | .error _ => none
      | .ok way =>
          match way.reverse.foldlM (keepLayout tables) known with
          | .error fault => some (.error fault)
          | .ok known => keepLayouts? tables known rest

/-- A column of the key of a table without a definition. -/
def keyFaultOf? (tables : List Table) (t : Table) : Option SchemaFault :=
  (layoutIn tables t).undeclared?.map (.undeclaredKey t.name)

def withLayout (tables : List Table) (t : Table) : Table × Layout :=
  (t, layoutIn tables t)

/-- Tables with their layouts, unless a key is at fault. -/
def layoutsOf (tables order : List Table) : Except SchemaFault (List (Table × Layout)) :=
  match order.findSome? (keyFaultOf? tables) with
  | some fault => .error fault
  | none => .ok (order.map (withLayout tables))

variable {tables order more way rest : List Table} {t : Table} {fault : SchemaFault}

theorem layoutsOf_of_none (h : order.findSome? (keyFaultOf? tables) = none) :
    layoutsOf tables order = .ok (order.map (withLayout tables)) := by
  rw [layoutsOf, h]

theorem layoutsOf_append_of_fault (h : order.findSome? (keyFaultOf? tables) = some fault) :
    layoutsOf tables (order ++ more) = .error fault := by
  rw [layoutsOf, List.findSome?_append, h]
  rfl

theorem layoutsOf_of_fault (h : order.findSome? (keyFaultOf? tables) = some fault) :
    layoutsOf tables order = .error fault := by
  rw [← List.append_nil order]
  exact layoutsOf_append_of_fault h

theorem map_fst_withLayout : (order.map (withLayout tables)).map (·.1) = order := by
  rw [List.map_map]
  exact List.map_id order

theorem kept?_withLayout (ht : t ∈ order) :
    kept? (order.map (withLayout tables)) t = some (layoutIn tables t) := by
  induction order with
  | nil => simp at ht
  | cons u order ih =>
      by_cases hut : u = t
      · simp [kept?, withLayout, hut]
      · have hrest := ih ((List.mem_cons.mp ht).resolve_left (Ne.symm hut))
        rw [← hrest]
        simp [kept?, withLayout, hut]

section Acyclic

variable (hacyclic : cycle? (parentIn? tables) tables = none)

include hacyclic

/-- Behind its parent, a table gets its layout from the one that is kept. -/
theorem keepLayout_eq (ht : t ∈ tables) (hready : MayFollow (parentIn? tables) order t)
    (hsound : order.findSome? (keyFaultOf? tables) = none) :
    keepLayout tables (order.map (withLayout tables)) t = layoutsOf tables (order ++ [t]) := by
  have habove : ((parentIn? tables t).bind (kept? (order.map (withLayout tables)))).getD {} =
      layoutAbove tables t := by
    cases hp : parentIn? tables t with
    | none => rw [layoutAbove_of_root hp, Option.bind_none, Option.getD_none]
    | some p =>
        rw [layoutAbove_of_parent hp, Option.bind_some, kept?_withLayout (hready.2 p hp),
          Option.getD_some]
  simp only [keepLayout, habove, ← layoutIn_eq_below hacyclic ht]
  cases hcolumn : (layoutIn tables t).undeclared? with
  | none =>
      rw [layoutsOf_of_none (by simp [hsound, keyFaultOf?, hcolumn]), List.map_append]
      rfl
  | some c =>
      have hfault : keyFaultOf? tables t = some (.undeclaredKey t.name c) := by
        rw [keyFaultOf?, hcolumn, Option.map_some]
      exact (layoutsOf_of_fault (by simp [hsound, hfault])).symm

theorem foldlM_keepLayout (hway : way ⊆ tables)
    (hready : ReadyOrder (MayFollow (parentIn? tables)) order way)
    (hsound : order.findSome? (keyFaultOf? tables) = none) :
    way.foldlM (keepLayout tables) (order.map (withLayout tables)) =
      layoutsOf tables (order ++ way) := by
  induction way generalizing order with
  | nil =>
      rw [List.append_nil, layoutsOf_of_none hsound]
      rfl
  | cons t way ih =>
      obtain ⟨ht, hway⟩ := List.cons_subset.mp hway
      have hlist : order ++ t :: way = order ++ [t] ++ way := by simp
      rw [List.foldlM_cons, keepLayout_eq hacyclic ht hready.1 hsound, hlist]
      cases hfault : (order ++ [t]).findSome? (keyFaultOf? tables) with
      | some fault =>
          rw [layoutsOf_of_fault hfault, layoutsOf_append_of_fault hfault]
          rfl
      | none =>
          rw [layoutsOf_of_none hfault]
          exact ih hway hready.2 hfault

theorem keepLayouts?_of_readyOrder (hrest : rest ⊆ tables)
    (horder : ReadyOrder (MayFollow (parentIn? tables)) [] order)
    (hsound : order.findSome? (keyFaultOf? tables) = none) :
    keepLayouts? tables (order.map (withLayout tables)) rest =
      some (layoutsOf tables
        (rest.foldl (placeAfterAncestors (parentIn? tables) tables) order)) := by
  induction rest generalizing order with
  | nil =>
      rw [List.foldl_nil, layoutsOf_of_none hsound]
      rfl
  | cons t rest ih =>
      obtain ⟨ht, hrest⟩ := List.cons_subset.mp hrest
      have hclosing := cycle?_eq_none_iff.mp hacyclic t ht
      have hplace := ((ascend_climb hclosing).place horder).1
      have hready := (ReadyOrder.append_iff.mp hplace).2
      rw [List.nil_append] at hready
      have hkeep := foldlM_keepLayout hacyclic (fun x hx => mem_of_mem_ascend
        ((List.takeWhile_sublist _).mem (List.mem_reverse.mp hx))) hready hsound
      rw [← placeAfterAncestors] at hplace hkeep
      rw [keepLayouts?, map_fst_withLayout, ascendToPlaced_eq hclosing, List.foldl_cons]
      simp only [hkeep]
      cases hfault : (placeAfterAncestors (parentIn? tables) tables order t).findSome?
          (keyFaultOf? tables) with
      | some fault =>
          obtain ⟨more, hmore⟩ := prefix_foldl_placeAfterAncestors (parentIn? tables) tables rest
            (placeAfterAncestors (parentIn? tables) tables order t)
          rw [layoutsOf_of_fault hfault, ← hmore, layoutsOf_append_of_fault hfault]
      | none =>
          rw [layoutsOf_of_none hfault]
          exact ih hrest hplace hfault

/-- What is kept are the tables with their layouts, in the order that puts parents first. -/
theorem keepLayouts?_eq :
    keepLayouts? tables [] tables = some (layoutsOf tables (tablesInOrder tables)) :=
  keepLayouts?_of_readyOrder hacyclic (List.Subset.refl tables) ReadyOrder.nil rfl

/-- It stops at a fault just if the layouts of the lineages have one, and it is the same fault. -/
theorem keepLayouts?_eq_error_iff :
    keepLayouts? tables [] tables = some (.error fault) ↔ keyFault? tables = some fault := by
  rw [keepLayouts?_eq hacyclic, layoutsOf]
  change _ ↔ (tablesInOrder tables).findSome? (keyFaultOf? tables) = some fault
  cases (tablesInOrder tables).findSome? (keyFaultOf? tables) <;> simp

end Acyclic

/-- All layouts of a schema are found by keeping them. -/
theorem Schema.keepLayouts?_tables (g : Schema) :
    keepLayouts? g.tables [] g.tables =
      some (.ok (g.tablesInOrder.map fun t => (t, g.layout t))) := by
  rw [keepLayouts?_eq g.acyclic, layoutsOf_of_none g.faultless_cases.2.2.2.2]
  rfl

end ShardKeys
