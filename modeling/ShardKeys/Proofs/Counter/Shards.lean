import Mathlib.Algebra.Order.Group.Unbundled.Abs
import Mathlib.Order.Interval.Finset.Nat
import ShardKeys.Counter

/-! # Keys over the shards

The last bits of a counter are the first bits of its key. Counters in a row run through all
remainders of a power of two, so their keys run through all ranges into which it divides the key
space.
-/

namespace ShardKeys

/-- The key lies in range `r` of the `2 ^ k` ranges of equal length that make up the key space. -/
def Key.InShard (k r : Nat) (key : Key) : Prop :=
  r * 2 ^ (64 - k) ≤ key.toNat ∧ key.toNat < (r + 1) * 2 ^ (64 - k)

theorem Key.inShard_iff {k r : Nat} {key : Key} :
    key.InShard k r ↔ key.toNat / 2 ^ (64 - k) = r := by
  have hpos : 0 < 2 ^ (64 - k) := Nat.two_pow_pos _
  rw [InShard, Nat.div_eq_iff hpos, Nat.succ_mul]
  omega

namespace Counter

variable {c d : Counter} {k r first modulus remainder : Nat}

/-! ## Bits of keys -/

theorem testBit_toKey (c : Counter) (i : Nat) :
    (toKey c).toNat.testBit i = (decide (i < 64) && c.toNat.testBit (63 - i)) := by
  show (c.toBitVec.reverse).getLsbD i = (decide (i < 64) && c.toBitVec.getLsbD (63 - i))
  rw [BitVec.getLsbD_reverse, BitVec.getMsbD_eq_getLsbD]

/-- Two keys begin with the same bits just if their counters end with the same bits. -/
theorem toKey_div_eq_iff (hk : k ≤ 64) :
    (toKey c).toNat / 2 ^ (64 - k) = (toKey d).toNat / 2 ^ (64 - k) ↔
      c.toNat % 2 ^ k = d.toNat % 2 ^ k := by
  constructor
  · intro h
    refine Nat.eq_of_testBit_eq fun i => ?_
    by_cases hi : i < k
    · have hbit := congrArg (Nat.testBit · (k - 1 - i)) h
      have hplace : k - 1 - i + (64 - k) = 63 - i := by omega
      have hmirror : 63 - (63 - i) = i := by omega
      have hwithin : 63 - i < 64 := by omega
      simpa [Nat.testBit_div_two_pow, testBit_toKey, hplace, hmirror, hwithin, hi] using hbit
    · simp [hi]
  · intro h
    refine Nat.eq_of_testBit_eq fun i => ?_
    by_cases hi : i < k
    · have hbit := congrArg (Nat.testBit · (k - 1 - i)) h
      have hplace : 63 - (i + (64 - k)) = k - 1 - i := by omega
      have hwithin : i + (64 - k) < 64 := by omega
      have hlow : k - 1 - i < k := by omega
      simpa [Nat.testBit_div_two_pow, testBit_toKey, hplace, hwithin, hlow] using hbit
    · have hbeyond : ¬ i + (64 - k) < 64 := by omega
      simp [Nat.testBit_div_two_pow, testBit_toKey, hbeyond]

theorem toKey_mod_eq_iff (hk : k ≤ 64) :
    (toKey c).toNat % 2 ^ k = (toKey d).toNat % 2 ^ k ↔
      c.toNat / 2 ^ (64 - k) = d.toNat / 2 ^ (64 - k) := by
  rw [← toKey_div_eq_iff hk, toKey_toKey, toKey_toKey]

/-! ## Windows of counters -/

/-- The keys in one range are those of the counters with one remainder. -/
theorem exists_inShard_iff (hk : k ≤ 64) (hr : r < 2 ^ k) :
    ∃ remainder < 2 ^ k, ∀ c, (toKey c).InShard k r ↔ c.toNat % 2 ^ k = remainder := by
  have hsize : r * 2 ^ (64 - k) < UInt64.size :=
    calc
      r * 2 ^ (64 - k) < 2 ^ k * 2 ^ (64 - k) := Nat.mul_lt_mul_of_pos_right hr (Nat.two_pow_pos _)
      _ = 2 ^ 64 := by rw [Nat.mul_comm, Nat.pow_sub_mul_pow 2 hk]
  let start : Key := UInt64.ofNat (r * 2 ^ (64 - k))
  have hstart : start.toNat / 2 ^ (64 - k) = r := by
    rw [UInt64.toNat_ofNat_of_lt' hsize, Nat.mul_div_cancel r (Nat.two_pow_pos _)]
  refine ⟨(toKey start).toNat % 2 ^ k, Nat.mod_lt _ (Nat.two_pow_pos k), fun c => ?_⟩
  rw [Key.inShard_iff, ← toKey_div_eq_iff hk, toKey_toKey, hstart]

theorem existsUnique_mod_eq (hlast : first + modulus ≤ UInt64.size)
    (h : remainder < modulus) :
    ∃! c : Counter,
      (first ≤ c.toNat ∧ c.toNat < first + modulus) ∧ c.toNat % modulus = remainder := by
  have hmem : remainder ∈ (Finset.Ico first (first + modulus)).image (· % modulus) := by
    rwa [Nat.image_Ico_mod, Finset.mem_range]
  obtain ⟨m, hm, hremainder⟩ := Finset.mem_image.mp hmem
  obtain ⟨hfirst, hend⟩ := Finset.mem_Ico.mp hm
  have hc : (UInt64.ofNat m).toNat = m := UInt64.toNat_ofNat_of_lt' (by omega)
  refine existsUnique_of_exists_of_unique ?some ?one
  case some => exact ⟨UInt64.ofNat m, by rw [hc]; exact ⟨⟨hfirst, hend⟩, hremainder⟩⟩
  case one =>
    rintro c d ⟨hc, hcmod⟩ ⟨hd, hdmod⟩
    have hinj := Nat.mod_injOn_Ico first modulus (by simpa using hc) (by simpa using hd)
    exact UInt64.toNat_inj.mp (hinj (hcmod.trans hdmod.symm))

theorem existsUnique_inShard (hk : k ≤ 64) (hlast : first + 2 ^ k ≤ UInt64.size) (hr : r < 2 ^ k) :
    ∃! c : Counter, (first ≤ c.toNat ∧ c.toNat < first + 2 ^ k) ∧ (toKey c).InShard k r := by
  obtain ⟨remainder, hremainder, hshard⟩ := exists_inShard_iff hk hr
  simp only [hshard]
  exact existsUnique_mod_eq hlast hremainder

/-! ## Neighbouring counters -/

/-- The first two bits of a key are the last two of its counter in reverse order. -/
theorem toKey_quarter (c : Counter) :
    (toKey c).toNat / 2 ^ 62 = 2 * (c.toNat % 2) + c.toNat / 2 % 2 := by
  have hlow : ∀ low : Fin 4,
      (toKey (UInt64.ofNat low)).toNat / 2 ^ 62 = 2 * (low.val % 2) + low.val / 2 % 2 := by
        decide +kernel
  have hbits : c.toNat % 2 ^ 2 = (UInt64.ofNat (c.toNat % 4)).toNat % 2 ^ 2 := by
    rw [UInt64.toNat_ofNat_of_lt' (by simp only [UInt64.size]; omega)]
    omega
  have hquarter := hlow ⟨c.toNat % 4, Nat.mod_lt _ (by decide)⟩
  rw [← toKey_div_eq_iff (k := 2) (by decide)] at hbits
  simp only at hquarter
  omega

theorem toKey_apart (h : d.toNat = c.toNat + 1) :
    (toKey c).toNat + 2 ^ 62 ≤ (toKey d).toNat ∨ (toKey d).toNat + 2 ^ 62 ≤ (toKey c).toNat := by
  have hc := toKey_quarter c
  have hd := toKey_quarter d
  by_cases hcarry : c.toNat % 4 = 1
  · -- The keys lie in neighbouring quarters, but in the same place of each: the last two bits
    -- alone change.
    have hplace : (toKey c).toNat % 2 ^ 62 = (toKey d).toNat % 2 ^ 62 :=
      (toKey_mod_eq_iff (k := 62) (by decide)).mpr (by omega)
    omega
  · have hothers : c.toNat % 4 = 0 ∨ c.toNat % 4 = 2 ∨ c.toNat % 4 = 3 := by omega
    rcases hothers with hzero | htwo | hthree <;> omega

theorem toKey_bijective : Function.Bijective toKey :=
  Function.Involutive.bijective toKey_toKey

/-- The keys of `2 ^ k` counters in a row are spread evenly: one lies in each of the `2 ^ k` ranges
of equal length. Every key belongs to one counter, of which it is made as the counter is made of the
key, and the keys of neighbouring counters lie a quarter of the key space apart at least. -/
theorem toKey_spreads :
    (∀ k ≤ 64, ∀ first, first + 2 ^ k ≤ 2 ^ 64 → ∀ r < 2 ^ k,
      ∃! c : Counter, (first ≤ c.toNat ∧ c.toNat < first + 2 ^ k) ∧ (toKey c).InShard k r) ∧
    Function.Bijective toKey ∧ (∀ c, toKey (toKey c) = c) ∧
    ∀ c : Counter, c < last → 2 ^ 62 ≤ |((toKey c).toNat : Int) - (toKey (c + 1)).toNat| := by
  refine ⟨fun k hk first hlast r hr => existsUnique_inShard hk hlast hr, toKey_bijective,
    toKey_toKey, ?_⟩
  intro c hc
  have hnext : (c + 1).toNat = c.toNat + 1 := by
    rw [UInt64.lt_iff_toNat_lt, toNat_last] at hc
    rw [UInt64.toNat_add, UInt64.toNat_one, Nat.mod_eq_of_lt (by omega)]
  rw [le_abs]
  have hapart := toKey_apart hnext
  omega

/-- One of the counters from 7 to 10 has its key in the last quarter of the key space, and the keys
of 9 and 10 lie a quarter apart. -/
theorem toKey_spreads_quarters :
    (∃! c : Counter, (7 ≤ c.toNat ∧ c.toNat < 7 + 2 ^ 2) ∧ (toKey c).InShard 2 3) ∧
      2 ^ 62 ≤ |((toKey 9).toNat : Int) - (toKey 10).toNat| :=
  ⟨toKey_spreads.1 2 (by decide) 7 (by decide) 3 (by decide), toKey_spreads.2.2.2 9 (by decide)⟩

end Counter
end ShardKeys
