import ShardKeys.Sequence.Fault
import ShardKeys.Text.Blank
import ShardKeys.Text.Cut

/-!
Names of sequences from text. A dot separates the schema from the name; a text without a dot takes
the schema it is given. Blanks around either part do not count.
-/

namespace ShardKeys.SequenceName

/-- The schema that a text stands for; a blank text stands for none. -/
def schema? (written : String) : Option String :=
  let schema := Text.trim written
  if schema.isEmpty then none else some schema

def ofParts (schema : Option String) (name : String) : Except ConfigurationFault SequenceName :=
  let name := Text.trim name
  if name.isEmpty then .error .blankName else .ok ⟨schema.bind schema?, name⟩

/-- The name that a text stands for where `defaultSchema` qualifies names without a dot. -/
def ofText (written : String) (defaultSchema : Option String) :
    Except ConfigurationFault SequenceName :=
  match Text.cut? '.' (Text.strip written.toList) with
  | some (schema, name) =>
      if (Text.strip schema).isEmpty then .error (.blankSchema written)
      else ofParts (some (String.ofList schema)) (String.ofList name)
  | none => ofParts defaultSchema written

end ShardKeys.SequenceName
