import ShardKeys.Json.Format
import ShardKeys.Schema.Table

/-!
The JSON forms of tables and their parts.
-/

namespace ShardKeys

open Json

instance : Format Column where
  toJson c := .ofMembers
    [("name", Format.toJson c.name), ("sqlType", Format.toJson c.type),
      ("nullable", Format.toJson c.nullable)]
  ofJson? := recordOf? ["name", "sqlType", "nullable"] fun r => do
    return {
      name := ← r.required "name"
      type := ← r.required "sqlType"
      nullable := ← r.withDefault "nullable" true }

instance : Format Index where
  toJson i := .ofMembers
    [("name", Format.toJson i.name), ("columns", Format.toJson i.columns),
      ("unique", Format.toJson i.unique)]
  ofJson? := recordOf? ["name", "columns", "unique"] fun r => do
    return {
      name := ← r.required "name"
      columns := ← r.required "columns"
      unique := ← r.withDefault "unique" false }

instance : Format ForeignKey where
  toJson f := .ofMembers
    [("name", Format.toJson f.name), ("columns", Format.toJson f.columns),
      ("referencedTable", Format.toJson f.table), ("referencedColumns", Format.toJson f.references)]
  ofJson? := recordOf? ["name", "columns", "referencedTable", "referencedColumns"] fun r => do
    return {
      name := ← r.required "name"
      columns := ← r.required "columns"
      table := ← r.required "referencedTable"
      references := ← r.required "referencedColumns" }

instance : Format Interleave where
  toJson i := .ofMembers
    [("parent", Format.toJson i.parent), ("onDeleteCascade", Format.toJson i.cascade)]
  ofJson? := recordOf? ["parent", "onDeleteCascade"] fun r => do
    return {
      parent := ← r.required "parent"
      cascade := ← r.withDefault "onDeleteCascade" false }

instance : Format Table where
  toJson t := .ofMembers
    [("name", Format.toJson t.name), ("columns", Format.toJson t.columns),
      ("primaryKey", Format.toJson t.key), ("interleave", Format.toJson t.interleave),
      ("indexes", Format.toJson t.indexes), ("foreignKeys", Format.toJson t.foreignKeys)]
  ofJson? :=
    recordOf? ["name", "columns", "primaryKey", "interleave", "indexes", "foreignKeys"] fun r => do
      return {
        name := ← r.required "name"
        columns := ← r.withDefault "columns" []
        key := ← r.withDefault "primaryKey" []
        interleave := ← r.withDefault "interleave" none
        indexes := ← r.withDefault "indexes" []
        foreignKeys := ← r.withDefault "foreignKeys" [] }

end ShardKeys
