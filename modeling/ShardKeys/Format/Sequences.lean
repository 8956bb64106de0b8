import ShardKeys.Script.Mode
import ShardKeys.Dialect.Basic
import ShardKeys.Exclusion.Printer
import ShardKeys.Json.Format
import ShardKeys.Sequence.Declaration

/-!
The JSON forms of declarations, names, exclusions and the words for surfaces and kinds of scripts.
-/

namespace ShardKeys

open Json

instance : Format Declaration where
  toJson d := .ofMembers
    [("sequenceName", Format.toJson d.name), ("schema", Format.toJson d.schema),
      ("startWithCounter", Format.toJson d.start), ("poolSize", Format.toJson d.poolSize),
      ("excludeRange", Format.toJson d.excluded)]
  ofJson? :=
    recordOf? ["sequenceName", "schema", "startWithCounter", "poolSize", "excludeRange"] fun r => do
      let default : Declaration := {}
      return {
        name := ← r.withDefault "sequenceName" default.name
        schema := ← r.withDefault "schema" default.schema
        start := ← r.withDefault "startWithCounter" default.start
        poolSize := ← r.withDefault "poolSize" default.poolSize
        excluded := ← r.withDefault "excludeRange" default.excluded }

instance : Format Bounds where
  toJson b := .ofMembers [("from", Format.toJson b.lower), ("to", Format.toJson b.upper)]
  ofJson? := recordOf? ["from", "to"] fun r => do
    return { lower := ← r.required "from", upper := ← r.required "to" }

/-- A set is written as its list of ranges. -/
instance : Format ExclusionSet where
  toJson s := Format.toJson s.text
  ofJson? v := (Format.ofJson? v).bind fun text => (ExclusionSet.parse text).toOption

/-- A name without a schema may leave it out, but only where members have names. -/
instance : Format SequenceName where
  toJson n := .ofMembers [("schema", Format.toJson n.schema), ("name", Format.toJson n.name)]
  ofJson? := recordOf? ["schema", "name"] fun r => do
    return {
      schema := ← if r.positional then r.required "schema" else r.withDefault "schema" none
      name := ← r.required "name" }

/-- The words for the surfaces. -/
def Surface.word : Surface → String
  | googleSql => "googlesql"
  | postgreSql => "postgresql"

def Surface.words : List (String × Surface) :=
  [googleSql, postgreSql].map fun s => (s.word, s)

instance : Format Surface where
  toJson s := Format.toJson s.word
  ofJson? := wordOf? Surface.words

/-- The words for the kinds of scripts. -/
def ScriptMode.word : ScriptMode → String
  | create => "create"
  | drop => "drop"
  | update => "update"

def ScriptMode.words : List (String × ScriptMode) :=
  [create, drop, update].map fun m => (m.word, m)

instance : Format ScriptMode where
  toJson m := Format.toJson m.word
  ofJson? := wordOf? ScriptMode.words

end ShardKeys
