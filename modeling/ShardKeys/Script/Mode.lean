/-!
Kinds of scripts.
-/

namespace ShardKeys

inductive ScriptMode where
  | create
  | drop
  | update
  deriving DecidableEq, Repr, Inhabited

end ShardKeys
