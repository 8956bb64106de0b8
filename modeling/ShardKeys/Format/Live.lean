import ShardKeys.Json.Format
import ShardKeys.Schema.Live

/-!
The JSON forms of sets and maps of names, and of live schemas.
-/

namespace ShardKeys

open Json

instance : Format NameSet where
  toJson s := Format.toJson s.toList
  ofJson? v := (Format.ofJson? v).map NameSet.ofList

/-- The entry of a map that a member of an object stands for. -/
def NameMap.entryOf? {α : Type} [Format α] (member : Json.Text × Value) : Option (String × α) := do
  return (← member.1.toString?, ← Format.ofJson? member.2)

instance {α : Type} [Format α] : Format (NameMap α) where
  toJson m := .ofMembers (m.entries.map fun e => (e.1, Format.toJson e.2))
  ofJson?
    | .object members => (members.mapM NameMap.entryOf?).map NameMap.ofList
    | _ => none

instance : Format LiveTable where
  toJson t := .ofMembers
    [("columns", Format.toJson t.columns), ("primaryKey", Format.toJson t.key),
      ("indexes", Format.toJson t.indexes), ("foreignKeys", Format.toJson t.foreignKeys)]
  ofJson? := recordOf? ["columns", "primaryKey", "indexes", "foreignKeys"] fun r => do
    return {
      columns := ← r.withDefault "columns" .empty
      key := ← r.withDefault "primaryKey" none
      indexes := ← r.withDefault "indexes" .empty
      foreignKeys := ← r.withDefault "foreignKeys" .empty }

instance : Format LiveSchema where
  toJson e := .ofMembers
    [("tables", Format.toJson e.tables), ("sequences", Format.toJson e.sequences)]
  ofJson? := recordOf? ["tables", "sequences"] fun r => do
    return {
      tables := ← r.withDefault "tables" .empty
      sequences := ← r.withDefault "sequences" .empty }

end ShardKeys
