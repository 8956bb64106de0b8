/-!
Names of backing sequences: a name of its own, and the schema that qualifies it, if any.
-/

namespace ShardKeys

structure SequenceName where
  schema : Option String
  name : String
  deriving DecidableEq, Repr, Inhabited

/-- The name as people write it: the schema, a dot, the name. -/
def SequenceName.text (n : SequenceName) : String :=
  match n.schema with
  | some schema => schema ++ "." ++ n.name
  | none => n.name

end ShardKeys
