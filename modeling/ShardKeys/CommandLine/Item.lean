/-!
Items of a command line. A long option has its value behind an equals sign or takes the next
argument, unless that looks like an option; two hyphens alone make words of all that follows.
-/

namespace ShardKeys.CommandLine

inductive Item where
  | word (word : String)
  /-- Only words follow. -/
  | escape
  /-- An option of a single hyphen, by its first letter. -/
  | short (letter : Char)
  | long (name : String) (value : Option String)
  | lacksValue (name : String)
  deriving DecidableEq, Repr

/-- A single hyphen looks like a word and every other argument that starts with one like an
option. -/
def looksLikeOption (arg : String) : Bool :=
  match arg.toList with
  | '-' :: _ :: _ => true
  | _ => false

/-- The name of a long option and what stands behind its first equals sign. -/
def splitAtEquals (cs : List Char) : String × Option String :=
  let name := String.ofList (cs.takeWhile (· ≠ '='))
  match cs.dropWhile (· ≠ '=') with
  | _ :: value => (name, some (String.ofList value))
  | [] => (name, none)

/-- The item that an argument starts, and the arguments behind the item; `valued` names the options
that take a value. -/
def nextItem (valued : List String) (arg : String) (rest : List String) : Item × List String :=
  match arg.toList with
  | ['-', '-'] => (.escape, rest)
  | '-' :: '-' :: body =>
      match splitAtEquals body, rest with
      | (name, some value), _ => (.long name (some value), rest)
      | (name, none), next :: behind =>
          if name ∈ valued then
            if looksLikeOption next then (.lacksValue name, rest)
            else (.long name (some next), behind)
          else (.long name none, rest)
      | (name, none), [] => (if name ∈ valued then .lacksValue name else .long name none, rest)
  | '-' :: letter :: _ => (.short letter, rest)
  | _ => (.word arg, rest)

theorem length_nextItem_le (valued : List String) (arg : String) (rest : List String) :
    (nextItem valued arg rest).2.length ≤ rest.length := by
  unfold nextItem
  grind

end ShardKeys.CommandLine
