import ShardKeys.Proofs.Schema.Inheritance
import ShardKeys.Script.Statement

/-! # The statement that creates a table

The elements in parentheses are the columns of the table, and on one of the surfaces the key is the
last of them. There a comma stands in front of the key, whether or not a column comes before it.
-/

namespace ShardKeys.Dialect

/-- The clause with the table's parent in the schema, behind a separator. A table without a parent
has none. -/
def parentClause (d : Dialect) (g : Schema) (t : Table) (sep : String) : String :=
  match g.parent? t with
  | some p =>
      sep ++ ("INTERLEAVE IN PARENT " ++ d.quote p.name
        ++ if t.interleave.any (·.cascade) then " ON DELETE CASCADE" else "")
  | none => ""

/-- The key of a table, the parts of the ancestors first. -/
def keyElement (d : Dialect) (g : Schema) (t : Table) : String :=
  "PRIMARY KEY (" ++ ",".intercalate ((g.key t).map d.quote) ++ ")"

/-- The statement for a table with these elements for its columns. The key stands behind the list or
is its last element. -/
def tableText (d : Dialect) (g : Schema) (t : Table) (columns : List String) : String :=
  match d.surface with
  | .googleSql =>
      "create table " ++ d.quote t.name ++ " (" ++ ",".intercalate columns ++ ") "
        ++ d.keyElement g t
        ++ d.parentClause g t ", "
  | .postgreSql =>
      "create table " ++ d.quote t.name ++ " (" ++ ",".intercalate (columns ++ [d.keyElement g t])
        ++ ")"
        ++ d.parentClause g t " "

variable {d : Dialect} {g : Schema} {t : Table} {c : Column} {sep : String}

theorem columnDefinition_ne_empty : d.columnDefinition c ≠ "" := by
  rw [columnDefinition, ← String.toList_inj.ne]
  simp

theorem parentClause_of_root (hroot : g.parent? t = none) : d.parentClause g t sep = "" := by
  rw [parentClause, hroot]

theorem parentClause_of_parent {p : Table} (hp : g.parent? t = some p) :
    d.parentClause g t sep =
      sep ++ d.interleaveClause { parent := p.name, cascade := t.interleave.any (·.cascade) } := by
  rw [parentClause, hp]
  rfl

theorem parentClause_eq (ht : t ∈ g.tables) :
    d.parentClause g t sep = (t.interleave.map fun i => sep ++ d.interleaveClause i).getD "" := by
  cases hi : t.interleave with
  | none =>
      have hroot : g.parent? t = none := by simp [Schema.parent?, parentIn?, Table.parentName?, hi]
      exact parentClause_of_root hroot
  | some i =>
      have hname : t.parentName? = some i.parent := by simp [Table.parentName?, hi]
      obtain ⟨p, hp, hparent⟩ := g.exists_parent ht hname
      have hnamed : p.name = i.parent := (g.table?_eq_some_iff.mp hp).2
      rw [parentClause_of_parent hparent, hnamed, hi]
      rfl

/-! ## The list in parentheses -/

/-- The definitions of all columns of a table. -/
def columnElements (d : Dialect) (g : Schema) (t : Table) : List String :=
  (g.columns t).map d.columnDefinition

theorem columnElements_eq_nil_iff : d.columnElements g t = [] ↔ g.columns t = [] :=
  List.map_eq_nil_iff

/-- What stands in front of a separator is a list of elements, and be it of an empty one. -/
theorem intercalate_append_separator {elements : List String} {last : String} :
    sep.intercalate elements ++ sep ++ last =
      sep.intercalate ((if elements = [] then [""] else elements) ++ [last]) := by
  split
  · next hnil => simp [hnil]
  · next hne =>
      rw [String.intercalate_append_of_ne_nil hne (List.cons_ne_nil _ _),
        String.intercalate_singleton]

theorem createTable_googleSql (hd : d.surface = .googleSql) (ht : t ∈ g.tables) :
    d.createTable g t = d.tableText g t (d.columnElements g t) := by
  simp only [createTable, tableText, hd, parentClause_eq ht]
  rfl

theorem createTable_postgreSql (hd : d.surface = .postgreSql) (ht : t ∈ g.tables) :
    d.createTable g t =
      d.tableText g t (if d.columnElements g t = [] then [""] else d.columnElements g t) := by
  simp only [createTable, tableText, hd, parentClause_eq ht, ← intercalate_append_separator,
    String.append_assoc]
  rfl

/-- One empty element more is one separator more. -/
theorem tableText_empty_ne (hd : d.surface = .postgreSql) :
    d.tableText g t [""] ≠ d.tableText g t [] := by
  intro h
  have hlength := congrArg String.length h
  simp [tableText, hd] at hlength

theorem key_eq_nil_of_columns (ht : t ∈ g.tables) (hnil : g.columns t = []) : g.key t = [] := by
  rw [List.eq_nil_iff_forall_not_mem]
  intro c hc
  obtain ⟨column, hcolumn⟩ := Option.isSome_iff_exists.mp (Schema.complete ht c hc)
  have hmem : column ∈ g.columns t := Layout.mem_columns_of_column? hcolumn
  rw [hnil] at hmem
  simp at hmem

/-- The list of a table has the definitions of all its columns, none of them empty, and on the
surface where the key is an element the key after them; the parent in the schema is named behind. It
is otherwise just for a table without columns on that surface. Such a table has no key either, and
its list starts with an empty element. -/
theorem createTable_wellFormed_iff (ht : t ∈ g.tables) :
    (d.createTable g t = d.tableText g t (d.columnElements g t) ↔
        (d.surface = .postgreSql → g.columns t ≠ [])) ∧
      (∀ element ∈ d.columnElements g t, element ≠ "") ∧
      (d.surface = .postgreSql → g.columns t = [] →
        d.createTable g t = d.tableText g t [""] ∧ g.key t = []) := by
  have hempty :
      d.surface = .postgreSql → g.columns t = [] → d.createTable g t = d.tableText g t [""] := by
    intro hd hnil
    rw [createTable_postgreSql hd ht, if_pos (columnElements_eq_nil_iff.mpr hnil)]
  refine ⟨⟨?nonempty, ?wellFormed⟩, ?elements,
    fun hd hnil => ⟨hempty hd hnil, key_eq_nil_of_columns ht hnil⟩⟩
  case nonempty =>
    intro h hd hnil
    rw [hempty hd hnil, columnElements_eq_nil_iff.mpr hnil] at h
    exact tableText_empty_ne hd h
  case wellFormed =>
    intro hne
    cases hd : d.surface with
    | googleSql => exact createTable_googleSql hd ht
    | postgreSql =>
        rw [createTable_postgreSql hd ht, if_neg (mt columnElements_eq_nil_iff.mp (hne hd))]
  case elements =>
    intro element helement
    obtain ⟨c, -, rfl⟩ := List.mem_map.mp helement
    exact columnDefinition_ne_empty

/-- Two columns are carried over to the streets, and the key comes after all three. -/
theorem createTable_wellFormed_iff_streets :
    let d : Dialect := { surface := .postgreSql }
    let t := Schema.street
    t ∈ Schema.streets.tables ∧ Schema.streets.columns t ≠ [] ∧
      d.tableText Schema.streets t (d.columnElements Schema.streets t) =
        "create table Street (Code STRING(3),CityId INT64 not null,StreetId INT64 not null,"
          ++ "PRIMARY KEY (Code,CityId,StreetId)) INTERLEAVE IN PARENT City" ∧
      d.createTable Schema.streets t =
        d.tableText Schema.streets t (d.columnElements Schema.streets t) := by
  intro d t
  have ht : t ∈ Schema.streets.tables := by simp [t, Schema.streets]
  have hne : Schema.streets.columns t ≠ [] := by decide +kernel
  exact ⟨ht, hne, by decide +kernel, (createTable_wellFormed_iff ht).1.mpr fun _ => hne⟩

/-- A table without columns is no fault in a schema, and a comma opens its list. -/
theorem createTable_starts_with_comma :
    let d : Dialect := { surface := .postgreSql }
    let t : Table := { name := "Ticks" }
    ∃ g, Schema.ofTables [t] = .ok g ∧ t ∈ g.tables ∧
      d.createTable g t = "create table Ticks (,PRIMARY KEY ())" ∧
      d.tableText g t (d.columnElements g t) = "create table Ticks (PRIMARY KEY ())" ∧
      d.createTable g t ≠ d.tableText g t (d.columnElements g t) := by
  intro d t
  let g : Schema := { tables := [t], faultless := by decide +kernel }
  have ht : t ∈ g.tables := List.mem_singleton.mpr rfl
  exact ⟨g, by decide +kernel, ht, by decide +kernel, by decide +kernel, by decide +kernel⟩

end ShardKeys.Dialect
