import ShardKeys.Proofs.Schema.WellFormed

/-! # What a table has from its ancestors

The key of a table gathers the keys of its ancestors from the root down. Columns of the parent's key
that the table leaves out come with the definition of the nearest ancestor that declares them.
-/

namespace ShardKeys

namespace Layout

variable {l : Layout} {c : String} {column : Column}

theorem mem_columns_of_column? (h : l.column? c = some column) : column ∈ l.columns := by
  rcases Option.or_eq_some_iff.mp h with hown | ⟨-, hcarried⟩
  · exact List.mem_append_right _ (List.mem_of_find?_eq_some hown)
  · exact List.mem_append_left _ (List.mem_of_find?_eq_some hcarried)

theorem map_some_filterMap_column? {names : List String} (h : ∀ c ∈ names, (l.column? c).isSome) :
    (names.filterMap l.column?).map some = names.map l.column? := by
  rw [List.map_filterMap_some_eq_filter_map_isSome, List.filter_eq_self]
  simpa using h

theorem map_name_filterMap_column? {names : List String} (h : ∀ c ∈ names, (l.column? c).isSome) :
    (names.filterMap l.column?).map (·.name) = names := by
  have hname : ∀ c ∈ names, (l.column? c).map (·.name) = some c := by
    intro c hc
    obtain ⟨column, hcolumn⟩ := Option.isSome_iff_exists.mp (h c hc)
    rw [hcolumn, Option.map_some, name_of_column? hcolumn]
  rw [List.map_filterMap, List.filterMap_congr hname, List.filterMap_some]

end Layout

namespace Schema

variable {g : Schema} {t p : Table} {path : List Table} {c : String}

theorem exists_climb (ht : t ∈ g.tables) : ∃ path, Climb g.parent? t path := by
  obtain ⟨path, hpath, -⟩ := ShardKeys.exists_climb g.acyclic ht
  exact ⟨path, hpath⟩

theorem mem_of_parent? (hp : g.parent? t = some p) : p ∈ g.tables :=
  mem_of_parentIn? hp

theorem complete (ht : t ∈ g.tables) : (g.layout t).Complete := by
  refine (forall_complete_iff g.acyclic).mpr ?_ t ht
  simpa only [Table.isSome_column?_iff] using g.wellFormed.keys

theorem key_of_climb (ht : t ∈ g.tables) (hpath : Climb g.parent? t path) :
    g.key t = (path.reverse.flatMap (·.key)).eraseDups := by
  rw [key, layout, layoutIn_of_climb g.acyclic ht hpath, Layout.key_ofLineage]

theorem layout_of_root (ht : t ∈ g.tables) (hroot : g.parent? t = none) :
    g.layout t = Layout.below {} t := by
  rw [layout, layoutIn_eq_below g.acyclic ht, layoutAbove_of_root hroot]

theorem layout_of_parent (ht : t ∈ g.tables) (hp : g.parent? t = some p) :
    g.layout t = (g.layout p).below t := by
  rw [layout, layoutIn_eq_below g.acyclic ht, layoutAbove_of_parent hp, layout]

/-! ## Keys -/

theorem key_parent_prefix (ht : t ∈ g.tables) (hp : g.parent? t = some p) :
    g.key p <+: g.key t := by
  obtain ⟨path, hpath⟩ := exists_climb (mem_of_parent? hp)
  rw [key_of_climb (mem_of_parent? hp) hpath, key_of_climb ht (.step hp hpath)]
  simp [List.eraseDups_append]

theorem exists_of_perm {tables : List Table} (hperm : tables.Perm g.tables) :
    ∃ h, ofTables tables = .ok h ∧ h.tables = tables ∧ ∀ t ∈ g.tables, h.key t = g.key t := by
  obtain ⟨h, hof, htables, -⟩ := ofTables_of_wellFormed (g.wellFormed.perm hperm)
  refine ⟨h, hof, htables, fun t ht => ?_⟩
  have hparent : h.parent? = g.parent? := by
    funext t
    rw [parent?, parent?, htables, parentIn?_perm hperm g.names_nodup]
  obtain ⟨path, hpath⟩ := exists_climb ht
  have ht' : t ∈ h.tables := htables ▸ hperm.mem_iff.mpr ht
  rw [key_of_climb ht hpath, key_of_climb ht' (hparent ▸ hpath)]

/-- The key of a table lists the keys of its ancestors and its own, root first, and every column
where it occurs first. No column occurs twice, the parent's key comes first, and the order in which
the tables are declared makes no difference. -/
theorem key_gathers_ancestors (ht : t ∈ g.tables) :
    (∃ path, Climb g.parent? t path ∧ g.key t = (path.reverse.flatMap (·.key)).eraseDups) ∧
      (g.key t).Nodup ∧
      (∀ p, g.parent? t = some p → g.key p <+: g.key t) ∧
      ∀ tables, tables.Perm g.tables →
        ∃ h, ofTables tables = .ok h ∧ h.tables = tables ∧ h.key t = g.key t := by
  obtain ⟨path, hpath⟩ := exists_climb ht
  have hkey := key_of_climb ht hpath
  refine ⟨⟨path, hpath, hkey⟩, hkey ▸ nodup_eraseDups _, fun p => key_parent_prefix ht, ?_⟩
  intro tables hperm
  obtain ⟨h, hof, htables, hkeys⟩ := exists_of_perm hperm
  exact ⟨h, hof, htables, hkeys t ht⟩

def country : Table where
  name := "Country"
  columns := [{ name := "Code", type := "STRING(2)", nullable := false }]
  key := ["Code"]

/-- The key of the country is declared again, with another type and behind the city's own. -/
def city : Table where
  name := "City"
  columns :=
    [{ name := "Code", type := "STRING(3)" },
      { name := "CityId", type := "INT64", nullable := false }]
  key := ["CityId", "Code"]
  interleave := some { parent := "Country" }

def street : Table where
  name := "Street"
  columns := [{ name := "StreetId", type := "INT64", nullable := false }]
  key := ["StreetId", "Code"]
  interleave := some { parent := "City" }

/-- Every table is declared before the one that it is interleaved in. -/
def streets : Schema where
  tables := [street, city, country]
  faultless := by decide +kernel
  sequences := []
  distinct := List.nodup_nil

theorem key_gathers_ancestors_streets :
    street ∈ streets.tables ∧ streets.key street = ["Code", "CityId", "StreetId"] ∧
      ∃ h, ofTables [city, country, street] = .ok h ∧ h.key street = streets.key street := by
  have ht : street ∈ streets.tables := by simp [streets]
  obtain ⟨-, -, -, horder⟩ := key_gathers_ancestors ht
  obtain ⟨h, hof, -, hkey⟩ := horder [city, country, street] (by decide)
  exact ⟨ht, by decide +kernel, h, hof, hkey⟩

/-! ## Columns -/

/-- A key column is defined by the nearest table on the way up that declares it. -/
theorem column?_of_climb (ht : t ∈ g.tables) (hpath : Climb g.parent? t path) (hc : c ∈ g.key t) :
    (g.layout t).column? c = path.findSome? (·.column? c) := by
  induction hpath with
  | root hroot => simp [layout_of_root ht hroot, Layout.column?_below, Option.or_none]
  | @step t p path hp _ ih =>
      have hdefined := complete ht c hc
      rw [layout_of_parent ht hp, Layout.column?_below] at hdefined ⊢
      cases hown : t.column? c with
      | some column => simp [hown]
      | none =>
          have hkey : c ∈ (g.layout p).key := by
            by_contra hkey
            simp [hown, hkey] at hdefined
          rw [if_pos hkey, Option.none_or, List.findSome?_cons, hown]
          exact ih (mem_of_parent? hp) hkey

theorem columns_of_root (ht : t ∈ g.tables) (hroot : g.parent? t = none) :
    g.columns t = t.columns := by
  simp [columns, layout_of_root ht hroot, Layout.columns, Layout.below]

theorem columns_of_parent (ht : t ∈ g.tables) (hp : g.parent? t = some p) :
    g.columns t =
      ((g.key p).filter (· ∉ t.columns.map (·.name))).filterMap (g.layout p).column?
        ++ t.columns := by
  have hundeclared (c : String) : (t.column? c).isNone = decide (c ∉ t.columns.map (·.name)) := by
    rw [Bool.eq_iff_iff]
    simp [Table.column?]
  simp only [columns, layout_of_parent ht hp, Layout.columns, Layout.below, hundeclared, key]

/-- The columns of a table are those carried over from above and those that it declares. Carried
over are the columns of the parent's key that the table leaves out, in the order of that key, and
each is defined as the nearest ancestor that declares it has it. No name is carried over twice, none
that the table declares, and all columns of the key are among the columns. -/
theorem columns_inherit (ht : t ∈ g.tables) :
    (g.parent? t = none → g.columns t = t.columns) ∧
      (∀ p, g.parent? t = some p →
        ∃ path carried, Climb g.parent? p path ∧ g.columns t = carried ++ t.columns ∧
          carried.map some =
            ((g.key p).filter (· ∉ t.columns.map (·.name))).map
              (fun c => path.findSome? (·.column? c)) ∧
          (carried.map (·.name)).Nodup ∧
          (carried.map (·.name)).Disjoint (t.columns.map (·.name))) ∧
      ∀ c ∈ g.key t, ∃ column ∈ g.columns t, column.name = c := by
  refine ⟨columns_of_root ht, ?parent, ?key⟩
  case parent =>
    intro p hp
    have hmem := mem_of_parent? hp
    obtain ⟨path, hpath⟩ := exists_climb hmem
    have hdefined :
        ∀ c ∈ (g.key p).filter (· ∉ t.columns.map (·.name)), ((g.layout p).column? c).isSome :=
      fun c hc => complete hmem c (List.mem_filter.mp hc).1
    refine ⟨path, _, hpath, columns_of_parent ht hp, ?_, ?_, ?_⟩
    · rw [Layout.map_some_filterMap_column? hdefined]
      exact List.map_congr_left fun c hc => column?_of_climb hmem hpath (List.mem_filter.mp hc).1
    · rw [Layout.map_name_filterMap_column? hdefined, key_of_climb hmem hpath]
      exact (nodup_eraseDups _).filter _
    · rw [Layout.map_name_filterMap_column? hdefined]
      intro c hc
      simpa using (List.mem_filter.mp hc).2
  case key =>
    intro c hc
    obtain ⟨column, hcolumn⟩ := Option.isSome_iff_exists.mp (complete ht c hc)
    exact ⟨column, Layout.mem_columns_of_column? hcolumn, Layout.name_of_column? hcolumn⟩

/-- The code of the country comes with the type that the city gives it. -/
theorem columns_inherit_streets :
    street ∈ streets.tables ∧ streets.parent? street = some city ∧
      streets.columns street = [
        { name := "Code", type := "STRING(3)" },
        { name := "CityId", type := "INT64", nullable := false },
        { name := "StreetId", type := "INT64", nullable := false }] ∧
      ∃ path carried, Climb streets.parent? city path ∧
        streets.columns street = carried ++ street.columns ∧ (carried.map (·.name)).Nodup := by
  have ht : street ∈ streets.tables := by simp [streets]
  have hp : streets.parent? street = some city := by decide
  obtain ⟨path, carried, hpath, hcolumns, -, hnodup, -⟩ := (columns_inherit ht).2.1 _ hp
  exact ⟨ht, hp, by decide +kernel, path, carried, hpath, hcolumns, hnodup⟩

end Schema

end ShardKeys
