/-!
Blank characters and trimming. A character is blank when it has the Unicode property `White_Space`;
trimming removes the blanks at both ends of a text and touches nothing between them.
-/

namespace ShardKeys.Text

/-- The code points with the property `White_Space`, as closed ranges in ascending order. -/
def blankRanges : List (Nat × Nat) :=
  [(0x9, 0xD), (0x20, 0x20), (0x85, 0x85), (0xA0, 0xA0), (0x1680, 0x1680), (0x2000, 0x200A),
    (0x2028, 0x2029), (0x202F, 0x202F), (0x205F, 0x205F), (0x3000, 0x3000)]

def isBlank (c : Char) : Bool :=
  blankRanges.any fun range => range.1 ≤ c.toNat && c.toNat ≤ range.2

/-- The characters left when the blanks at both ends are gone. -/
def strip (cs : List Char) : List Char :=
  ((cs.dropWhile isBlank).reverse.dropWhile isBlank).reverse

def trim (s : String) : String :=
  String.ofList (strip s.toList)

@[simp] theorem toList_trim (s : String) : (trim s).toList = strip s.toList := by
  simp [trim]

@[simp] theorem strip_nil : strip [] = [] := rfl

/-- Nothing is left of blanks alone, and of no other characters. -/
theorem strip_eq_nil_iff {cs : List Char} : strip cs = [] ↔ ∀ c ∈ cs, isBlank c := by
  induction cs with
  | nil => simp
  | cons c cs ih =>
      by_cases hc : isBlank c
      · simpa [strip, hc] using ih
      · simp only [strip, List.dropWhile_cons_of_neg hc, List.reverse_cons, List.dropWhile_append]
        split <;> simp [hc]

theorem isEmpty_trim_iff {s : String} : (trim s).isEmpty ↔ ∀ c ∈ s.toList, isBlank c := by
  rw [String.isEmpty_iff, ← String.toList_eq_nil_iff, toList_trim, strip_eq_nil_iff]

end ShardKeys.Text
