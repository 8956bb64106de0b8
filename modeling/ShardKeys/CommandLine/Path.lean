/-!
Paths of snapshots and what is found there. Slashes separate the parts of a path; behind the first
part, empty parts and single dots lead nowhere and do not count. A path whose only part is a hyphen
means standard input.
-/

namespace ShardKeys.CommandLine

/-- The parts of a path that count. The first one is empty where the path starts with a slash. -/
def pathParts (path : List Char) : List (List Char) :=
  match path.splitOn '/' with
  | [] => []
  | first :: rest => first :: rest.filter fun part => part ≠ [] ∧ part ≠ ['.']

def isStandardInput (path : String) : Bool :=
  pathParts path.toList = [['-']]

/-- What is found at the end of a path. -/
inductive Found where
  /-- There is nothing that could be opened. -/
  | nothing
  /-- There is something, but it cannot be read, such as a folder. -/
  | unreadable
  | bytes (bytes : ByteArray)
  deriving Inhabited

end ShardKeys.CommandLine
