/-!
Raw counters and the keys made from them. A backing sequence hands out 64-bit counters in order; a
key is a counter read from its other end, so that neighbouring counters become keys that lie far
apart.
-/

namespace ShardKeys

/-- A raw value of a backing sequence. -/
abbrev Counter := UInt64

/-- A value that identifies a row. -/
abbrev Key := UInt64

namespace Counter

/-- The key of a counter: its 64 bits in reverse order. -/
def toKey (c : Counter) : Key :=
  ⟨c.toBitVec.reverse⟩

/-- Reversing twice restores the counter. -/
@[simp] theorem toKey_toKey (c : Counter) : toKey (toKey c) = c := by
  simp [toKey, BitVec.reverse_reverse_eq]

/-- The largest counter. -/
def last : Counter := 0xFFFFFFFFFFFFFFFF

@[simp] theorem toNat_last : last.toNat = 0xFFFFFFFFFFFFFFFF := rfl

theorem le_last (c : Counter) : c ≤ last := by
  have := c.toNat_lt
  rw [UInt64.le_iff_toNat_le, toNat_last]
  omega

/-- The counter `n` places further on, if there is one. -/
def advance? (c : Counter) (n : Nat) : Option Counter :=
  if h : c.toNat + n < UInt64.size then some (UInt64.ofNatLT (c.toNat + n) h) else none

/-- The counter one place further on, or the last counter itself. -/
def after (c : Counter) : Counter :=
  (advance? c 1).getD last

theorem advance?_eq_some_iff {c d : Counter} {n : Nat} :
    advance? c n = some d ↔ d.toNat = c.toNat + n := by
  have hd := d.toNat_lt
  unfold advance?
  split
  · next h =>
      simp only [UInt64.size] at h
      simp only [Option.some.injEq, ← UInt64.toNat_inj, UInt64.toNat_ofNatLT]
      omega
  · next h =>
      simp only [UInt64.size] at h
      simp only [reduceCtorEq, false_iff]
      omega

theorem advance?_eq_none_iff {c : Counter} {n : Nat} :
    advance? c n = none ↔ last.toNat < c.toNat + n := by
  rw [toNat_last, advance?]
  split
  · next h =>
      simp only [UInt64.size] at h
      simp only [reduceCtorEq, false_iff]
      omega
  · next h =>
      simp only [UInt64.size] at h
      simp only [true_iff]
      omega

theorem toNat_after (c : Counter) : (after c).toNat = min (c.toNat + 1) last.toNat := by
  have hc := c.toNat_lt
  rw [toNat_last]
  unfold after
  cases h : advance? c 1 with
  | none =>
      have := advance?_eq_none_iff.mp h
      rw [toNat_last] at this
      simp only [Option.getD_none, toNat_last]
      omega
  | some d =>
      have := advance?_eq_some_iff.mp h
      have := d.toNat_lt
      simp only [Option.getD_some]
      omega

/-- The `count` counters from `first` on. -/
def block (first : Counter) (count : Nat) : List Counter :=
  (List.range count).map fun i => first + UInt64.ofNat i

@[simp] theorem length_block (first : Counter) (count : Nat) :
    (block first count).length = count := by
  simp [block]

end Counter

end ShardKeys
