import ShardKeys.Exclusion.Set

/-!
Writing an exclusion set as a list of ranges: every interval in brackets, separated by semicolons.
The empty set is the empty text.
-/

namespace ShardKeys.ExclusionSet

def text (s : ExclusionSet) : String :=
  ";".intercalate (s.intervals.map fun i => i.toBounds.text)

@[simp] theorem text_empty : empty.text = "" := rfl

end ShardKeys.ExclusionSet
