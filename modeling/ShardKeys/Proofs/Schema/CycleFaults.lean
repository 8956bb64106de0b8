import Mathlib.Data.List.GetD
import Mathlib.Data.Option.Basic
import ShardKeys.Proofs.Schema.Marking
import ShardKeys.Proofs.Schema.WellFormed

/-! # Tables on a cycle

A cycle is told of tables only if names and parents are not at fault. Then the parents may be looked
up once and searched by their places; the tables at the places that are found are those of one
cycle, without the tables that hang off it.
-/

namespace ShardKeys

variable {tables : List Table} {names : List String} {i : Nat}

/-! ## The fault of a cycle -/

theorem nameFault?_ne_cycle {seen : List String} :
    nameFault? seen tables ≠ some (.cycle names) := by
  induction tables generalizing seen with
  | nil => simp [nameFault?]
  | cons t rest ih =>
      rw [nameFault?]
      split_ifs
      · simp
      · simp
      · exact ih

theorem Table.parentFault?_ne_cycle {t : Table} : t.parentFault? tables ≠ some (.cycle names) := by
  unfold parentFault?
  split
  · simp
  · split_ifs <;> simp

theorem indexFault?_ne_cycle {table : String} {seen : List String} {indexes : List Index} :
    indexFault? table seen indexes ≠ some (.cycle names) := by
  induction indexes generalizing seen with
  | nil => simp [indexFault?]
  | cons i rest ih =>
      rw [indexFault?]
      split_ifs
      · simp
      · exact ih

theorem ForeignKey.fault?_ne_cycle {f : ForeignKey} {table : String} :
    f.fault? tables table ≠ some (.cycle names) := by
  unfold ForeignKey.fault?
  split_ifs <;> simp

theorem referenceFault?_ne_cycle {seen : List String} {rest : List Table} :
    referenceFault? tables seen rest ≠ some (.cycle names) := by
  induction rest generalizing seen with
  | nil => simp [referenceFault?]
  | cons t rest ih =>
      intro h
      rw [referenceFault?, Option.or_eq_some_iff, Option.or_eq_some_iff] at h
      rcases h with h | ⟨-, h | ⟨-, h⟩⟩
      · exact indexFault?_ne_cycle h
      · obtain ⟨f, -, hf⟩ := List.exists_of_findSome?_eq_some h
        exact ForeignKey.fault?_ne_cycle hf
      · exact ih h

theorem keyFault?_ne_cycle : keyFault? tables ≠ some (.cycle names) := by
  intro h
  obtain ⟨t, -, ht⟩ := List.exists_of_findSome?_eq_some h
  simp at ht

/-- A cycle is told of tables whose names and parents are not at fault. -/
theorem fault?_eq_cycle_iff :
    fault? tables = some (.cycle names) ↔
      nameFault? [] tables = none ∧ (∀ t ∈ tables, t.parentFault? tables = none) ∧
        ∃ members,
          cycle? (parentIn? tables) tables = some members ∧ members.map (·.name) = names := by
  have hparent : tables.findSome? (·.parentFault? tables) ≠ some (.cycle names) := by
    intro h
    obtain ⟨t, -, ht⟩ := List.exists_of_findSome?_eq_some h
    exact Table.parentFault?_ne_cycle ht
  simp [fault?, Option.or_eq_some_iff, nameFault?_ne_cycle, hparent, referenceFault?_ne_cycle,
    keyFault?_ne_cycle, cycleFault?]

theorem Schema.ofTables_eq_error_iff {fault : SchemaFault} :
    Schema.ofTables tables = .error fault ↔ fault? tables = some fault := by
  unfold ofTables
  split <;> simp_all

/-- The places of the parents of tables, as they are looked up once. -/
def parentPositions (tables : List Table) : List (Option Nat) :=
  tables.map fun t => t.parentName?.bind fun name => tables.findIdx? (·.name = name)

theorem map_getD_range (tables : List Table) :
    (List.range tables.length).map (tables.getD · default) = tables := by
  refine List.ext_getElem (by simp) fun i _ hi => ?_
  rw [List.getElem_map, List.getElem_range, List.getD_eq_getElem tables default hi]

theorem parentPositions_lt :
    ∀ parent ∈ parentPositions tables, ∀ i ∈ parent, i < (parentPositions tables).length := by
  intro parent hparent i hi
  obtain ⟨t, -, rfl⟩ := List.mem_map.mp hparent
  obtain ⟨name, -, hfind⟩ := Option.bind_eq_some_iff.mp hi
  rw [parentPositions, List.length_map]
  exact (List.findIdx?_eq_some_iff_getElem.mp hfind).1

theorem parentIn?_getD {i : Nat} (hi : i < tables.length) :
    parentIn? tables (tables.getD i default) =
      (parentAt (parentPositions tables) i).map (tables.getD · default) := by
  have hplace : parentAt (parentPositions tables) i =
      tables[i].parentName?.bind fun name => tables.findIdx? (·.name = name) := by
    simp [parentAt, parentPositions, hi]
  rw [hplace, List.getD_eq_getElem tables default hi, parentIn?]
  cases tables[i].parentName? with
  | none => rfl
  | some name =>
      rw [Option.bind_some, Option.bind_some, tableNamed?, List.find?_eq_bind_findIdx?_getElem?]
      cases hfind : tables.findIdx? (·.name = name) with
      | none => rfl
      | some j =>
          have hj := (List.findIdx?_eq_some_iff_getElem.mp hfind).1
          simp [List.getElem?_eq_getElem hj]

/-- The marks find the cycle of tables, place by place. -/
theorem cycle?_eq_map_positions (hnodup : tables.Nodup) :
    ∃ found, cycleByMarks? (parentPositions tables) = some found ∧
      (∀ path, found = some path → ∀ i ∈ path, i < tables.length) ∧
      cycle? (parentIn? tables) tables = found.map (·.map (tables.getD · default)) := by
  have hlength : (parentPositions tables).length = tables.length := List.length_map _
  have hinj : ∀ i ∈ List.range tables.length, ∀ j ∈ List.range tables.length,
      tables.getD i default = tables.getD j default → i = j := by
    intro i hi j hj h
    rw [List.mem_range] at hi hj
    rw [List.getD_eq_getElem tables default hi, List.getD_eq_getElem tables default hj] at h
    exact (hnodup.getElem_inj_iff).mp h
  have hnodes := parentAt_mem_range (@parentPositions_lt tables)
  rw [hlength] at hnodes
  have hmap := cycle?_map hinj hnodes fun i hi => parentIn?_getD (List.mem_range.mp hi)
  rw [map_getD_range] at hmap
  refine ⟨_, cycleByMarks?_eq parentPositions_lt, ?_⟩
  rw [hlength]
  refine ⟨fun path hpath i hi => ?_, hmap⟩
  exact List.mem_range.mp ((isCycle_of_cycle? hnodes List.nodup_range hpath).2 hi)

theorem map_name_getElem? {path : List Nat} (hpath : ∀ i ∈ path, i < tables.length) :
    path.map (fun i => tables[i]?.map (·.name)) =
      ((path.map (tables.getD · default)).map (·.name)).map some := by
  rw [List.map_map, List.map_map]
  refine List.map_congr_left fun i hi => ?_
  simp [List.getElem?_eq_getElem (hpath i hi)]

theorem IsCycle.names_iff {members : List Table} (h : IsCycle (parentIn? tables) members)
    (hmembers : members ⊆ tables)
    (hdistinct : (tables.map (·.name)).Nodup) {m t : Table} (hm : m ∈ members) (ht : t ∈ tables) :
    t.name ∈ members.map (·.name) ↔ Descends (parentIn? tables) m t := by
  rw [h.descends_iff_mem hm]
  constructor
  · intro hname
    obtain ⟨u, hu, hsame⟩ := List.mem_map.mp hname
    exact List.inj_on_of_nodup_map hdistinct (hmembers hu) ht hsame ▸ hu
  · exact fun hmem => List.mem_map_of_mem hmem

/-- The search by marks ends, and every mark and every parent that it looks up is there. It finds
nothing just if a way up leads from every node to a root, and otherwise the members of one cycle,
each followed by its parent. The tables that a schema is refused for are those at the places of such
a cycle: just the tables to which steps from parent to parent lead from one of them, so none that
only hangs off the cycle. -/
theorem cycleByMarks?_finds_cycle :
    (∀ parents : List (Option Nat), (∀ parent ∈ parents, ∀ i ∈ parent, i < parents.length) →
      let found := cycle? (parentAt parents) (List.range parents.length)
      cycleByMarks? parents = some found ∧
        (found = none ↔ ∀ i < parents.length, ∃ path, Climb (parentAt parents) i path) ∧
        ∀ path, found = some path → IsCycle (parentAt parents) path) ∧
    (∀ tables names, Schema.ofTables tables = .error (.cycle names) ↔
      nameFault? [] tables = none ∧ (∀ t ∈ tables, t.parentFault? tables = none) ∧
        ∃ path, cycleByMarks? (parentPositions tables) = some (some path) ∧
          path.map (fun i => tables[i]?.map (·.name)) = names.map some) ∧
    ∀ tables names, Schema.ofTables tables = .error (.cycle names) →
      ∃ members ⊆ tables, IsCycle (parentIn? tables) members ∧ members.map (·.name) = names ∧
        ∀ m ∈ members, ∀ t ∈ tables, t.name ∈ names ↔ Descends (parentIn? tables) m t := by
  refine ⟨?search, ?places, ?members⟩
  case search =>
    intro parents hparents found
    have hnodes := parentAt_mem_range hparents
    refine ⟨cycleByMarks?_eq hparents, ?_,
      fun path hpath => (isCycle_of_cycle? hnodes List.nodup_range hpath).1⟩
    rw [cycle?_eq_none_iff_climb hnodes]
    simp only [List.mem_range]
  case places =>
    intro tables names
    rw [Schema.ofTables_eq_error_iff, fault?_eq_cycle_iff]
    refine and_congr_right fun hname => and_congr_right fun _ => ?_
    have hnodup : tables.Nodup := (nameFault?_eq_none_iff.mp hname).2.of_map
    obtain ⟨found, hmarks, hrange, hcycle⟩ := cycle?_eq_map_positions hnodup
    rw [hmarks, hcycle]
    cases found with
    | none => simp
    | some path =>
        have hnames := map_name_getElem? (hrange path rfl)
        have hinj : Function.Injective (List.map (some : String → Option String)) :=
          List.map_injective_iff.mpr (Option.some_injective String)
        simp only [Option.map_some, Option.some.injEq, exists_eq_left', hnames, hinj.eq_iff]
  case members =>
    intro tables names h
    rw [Schema.ofTables_eq_error_iff, fault?_eq_cycle_iff] at h
    obtain ⟨hname, -, members, hcycle, rfl⟩ := h
    have hdistinct := (nameFault?_eq_none_iff.mp hname).2
    obtain ⟨hmembers, hsubset⟩ :=
      isCycle_of_cycle? (fun _ _ _ hp => mem_of_parentIn? hp) (hdistinct.of_map _) hcycle
    exact ⟨members, hsubset, hmembers, rfl,
      fun m hm t ht => hmembers.names_iff hsubset hdistinct hm ht⟩

/-- The first node hangs off the cycle of the second and the third, and the fourth is a root. -/
theorem cycleByMarks?_finds_cycle_tail :
    let parents := [some 1, some 2, some 1, none]
    (∀ parent ∈ parents, ∀ i ∈ parent, i < parents.length) ∧
      cycleByMarks? parents = some (some [1, 2]) ∧ IsCycle (parentAt parents) [1, 2] := by
  intro parents
  have hrange : ∀ parent ∈ parents, ∀ i ∈ parent, i < parents.length := by decide
  have hfound : cycle? (parentAt parents) (List.range parents.length) = some [1, 2] := by
    decide +kernel
  obtain ⟨hmarks, -, hcycle⟩ := cycleByMarks?_finds_cycle.1 parents hrange
  rw [hfound] at hmarks
  exact ⟨hrange, hmarks, hcycle [1, 2] hfound⟩

/-- Of three tables, two are interleaved in each other, and the one that is interleaved in them is
not told. -/
example : Schema.ofTables [{ name := "Notes", interleave := some { parent := "Lines" } },
    { name := "Lines", interleave := some { parent := "Orders" } },
    { name := "Orders", interleave := some { parent := "Lines" } }] =
      .error (.cycle ["Lines", "Orders"]) := by
  decide +kernel

end ShardKeys
