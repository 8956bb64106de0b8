import ShardKeys.Dialect.Basic
import ShardKeys.Sequence.Declaration

/-!
Limits of a dialect on pools. Where every counter of a block is a column of the answer, a block
cannot be larger than an answer is wide.
-/

namespace ShardKeys

/-- The largest block that a single statement can fetch. -/
def Surface.fetchLimit? : Surface → Option Nat
  | googleSql => none
  | postgreSql => some 1000

namespace Dialect

/-- Whether a pool of the sequence can be filled in one round trip. -/
def Admits (d : Dialect) (s : Sequence) : Prop :=
  ∀ limit, d.surface.fetchLimit? = some limit → s.poolSize.toNat ≤ limit

instance (d : Dialect) (s : Sequence) : Decidable (d.Admits s) :=
  match h : d.surface.fetchLimit? with
  | none => .isTrue fun _ h' => by simp [h] at h'
  | some limit => decidable_of_iff (s.poolSize.toNat ≤ limit) (by simp [Admits, h])

def check (d : Dialect) (s : Sequence) : Except ConfigurationFault Unit :=
  match d.surface.fetchLimit? with
  | some limit =>
      if s.poolSize.toNat ≤ limit then .ok () else .error (.poolBeyondFetch s.name limit s.poolSize)
  | none => .ok ()

theorem check_eq_ok_iff {d : Dialect} {s : Sequence} : d.check s = .ok () ↔ d.Admits s := by
  unfold check Admits
  cases d.surface.fetchLimit? with
  | none => simp
  | some limit => by_cases h : s.poolSize.toNat ≤ limit <;> simp [h]

end Dialect

/-- The sequence that a declaration describes, if the dialect admits it. -/
def Declaration.validateFor (d : Declaration) (dialect : Dialect) :
    Except ConfigurationFault Sequence := do
  let s ← d.validate
  dialect.check s
  return s

end ShardKeys
