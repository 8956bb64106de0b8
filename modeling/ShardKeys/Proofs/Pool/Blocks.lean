import Mathlib.Data.List.Nodup
import ShardKeys.Pool.Memory
import ShardKeys.Proofs.Pool.Course

/-! # Blocks of the source in memory

The position of a sequence never moves back, and a block starts at the position or further on. So
the blocks of one sequence lie one behind the other, whoever asks for them, and never reach into one
another.
-/

namespace ShardKeys

namespace Counter

/-- A block that ends inside the counter space is a range. -/
theorem map_toNat_block {first : Counter} {count : Nat}
    (h : first.toNat + count ≤ last.toNat) :
    (block first count).map UInt64.toNat = List.range' first.toNat count := by
  rw [toNat_last] at h
  rw [block, List.map_map, List.range'_eq_map_range]
  apply List.map_congr_left
  intro i hi
  have := List.mem_range.mp hi
  simp only [Function.comp_apply, UInt64.toNat_add, UInt64.toNat_ofNat']
  omega

theorem mem_block {first c : Counter} {count : Nat} (h : first.toNat + count ≤ last.toNat) :
    c ∈ block first count ↔ first.toNat ≤ c.toNat ∧ c.toNat < first.toNat + count := by
  rw [← List.mem_range'_1, ← map_toNat_block h, List.mem_map]
  constructor
  · intro hc
    exact ⟨c, hc, rfl⟩
  · rintro ⟨d, hd, heq⟩
    exact UInt64.toNat_inj.mp heq ▸ hd

theorem nodup_block {first : Counter} {count : Nat} (h : first.toNat + count ≤ last.toNat) :
    (block first count).Nodup := by
  apply List.Nodup.of_map UInt64.toNat
  rw [map_toNat_block h]
  exact List.nodup_range'

end Counter

namespace Memory

/-- Where a request finds its sequence. -/
def standing (m : Memory) (request : FetchRequest) : Counter :=
  (m.position? request.sequence).getD request.origin

/-- Where a block for a request starts. -/
def first (m : Memory) (request : FetchRequest) : Counter :=
  if m.standing request ≤ request.least then request.least else m.standing request

theorem toNat_first (m : Memory) (request : FetchRequest) :
    (m.first request).toNat = max (m.standing request).toNat request.least.toNat := by
  unfold first
  split
  · next h =>
      rw [UInt64.le_iff_toNat_le] at h
      omega
  · next h =>
      rw [UInt64.le_iff_toNat_le] at h
      omega

theorem fetch_of_advance?_none {m : Memory} {request : FetchRequest}
    (h : (m.first request).advance? request.count.toNat = none) :
    m.fetch request = (.failed .exhausted, m.moveTo request.sequence (m.standing request)) := by
  unfold first standing at h
  simp only [fetch, h]
  rfl

theorem fetch_of_advance?_some {m : Memory} {request : FetchRequest} {next : Counter}
    (h : (m.first request).advance? request.count.toNat = some next) :
    m.fetch request =
      (.block (Counter.block (m.first request) request.count.toNat),
        m.moveTo request.sequence next) := by
  unfold first standing at h
  simp only [fetch, h]
  rfl

/-- A round trip either fails, as its block would pass the last counter, and leaves the sequence
where it stands; or it brings a block that starts where the sequence stands or where the request
asks for. -/
theorem fetch_cases (m : Memory) (request : FetchRequest) :
    (m.fetch request =
        (.failed .exhausted, m.moveTo request.sequence (m.standing request)) ∧
      Counter.last.toNat <
        max (m.standing request).toNat request.least.toNat + request.count.toNat) ∨
    ∃ first next : Counter,
      m.fetch request =
        (.block (Counter.block first request.count.toNat), m.moveTo request.sequence next) ∧
      first.toNat = max (m.standing request).toNat request.least.toNat ∧
      next.toNat = first.toNat + request.count.toNat := by
  cases h : (m.first request).advance? request.count.toNat with
  | none =>
      refine .inl ⟨fetch_of_advance?_none h, ?_⟩
      rw [← toNat_first]
      exact Counter.advance?_eq_none_iff.mp h
  | some next =>
      exact .inr ⟨m.first request, next, fetch_of_advance?_some h, m.toNat_first request,
        Counter.advance?_eq_some_iff.mp h⟩

theorem position?_fetch_of_ne (m : Memory) {request : FetchRequest} {name : SequenceName}
    (h : name ≠ request.sequence) : (m.fetch request).2.position? name = m.position? name := by
  rcases fetch_cases m request with ⟨hfetch, -⟩ | ⟨first, next, hfetch, -, -⟩
  · rw [hfetch, position?_moveTo, if_neg h]
  · rw [hfetch, position?_moveTo, if_neg h]

/-- All counters of a sequence that were ever handed out lie below its bound. -/
def bound (m : Memory) (name : SequenceName) : Nat :=
  ((m.position? name).map UInt64.toNat).getD 0

theorem bound_eq_of_position? {m m' : Memory} {name : SequenceName}
    (h : m'.position? name = m.position? name) : m'.bound name = m.bound name := by
  rw [bound, h, bound]

@[simp] theorem bound_moveTo (m : Memory) (name : SequenceName) (c : Counter) :
    (m.moveTo name c).bound name = c.toNat := by
  simp [bound]

theorem bound_le_standing (m : Memory) (request : FetchRequest) :
    m.bound request.sequence ≤ (m.standing request).toNat := by
  unfold bound standing
  cases m.position? request.sequence with
  | none => simp
  | some c => simp

theorem fetch_between (m : Memory) (request : FetchRequest) :
    m.bound request.sequence ≤ (m.fetch request).2.bound request.sequence ∧
      (⟨request, some (m.fetch request).1⟩ : Exchange).counters.Nodup ∧
      ∀ c ∈ (⟨request, some (m.fetch request).1⟩ : Exchange).counters,
        m.bound request.sequence ≤ c.toNat ∧
          c.toNat < (m.fetch request).2.bound request.sequence := by
  have hbound := m.bound_le_standing request
  rcases fetch_cases m request with ⟨hfetch, -⟩ | ⟨first, next, hfetch, hfirst, hnext⟩
  · rw [hfetch, bound_moveTo]
    exact ⟨hbound, .nil, by simp [Exchange.counters]⟩
  · have hfits : first.toNat + request.count.toNat ≤ Counter.last.toNat := by
      rw [← hnext]
      exact UInt64.le_iff_toNat_le.mp (Counter.le_last next)
    rw [hfetch, bound_moveTo]
    refine ⟨by omega, Counter.nodup_block hfits, ?_⟩
    intro c hc
    have := (Counter.mem_block hfits).mp hc
    omega

/-- Requests for one sequence, one after the other: what they bring lies between the bounds before
and after, without duplicates, and other sequences stay where they are. -/
theorem serves_between {m m' : Memory} {es : List Exchange} (h : source.Serves m es m')
    {name : SequenceName} (hname : ∀ e ∈ es, e.request.sequence = name) :
    m.bound name ≤ m'.bound name ∧ (received es).Nodup ∧
      ∀ c ∈ received es, m.bound name ≤ c.toNat ∧ c.toNat < m'.bound name := by
  induction es generalizing m with
  | nil =>
      obtain rfl : m' = m := h
      simp
  | cons e es ih =>
      obtain ⟨hanswer, hrest⟩ := h
      obtain ⟨hle, hnodup, hlater⟩ := ih hrest fun e he => hname e (List.mem_cons_of_mem _ he)
      have hfirst := fetch_between m e.request
      have he : (⟨e.request, some (m.fetch e.request).1⟩ : Exchange) = e :=
        congrArg (Exchange.mk e.request) hanswer.symm
      rw [hname e List.mem_cons_self, he] at hfirst
      obtain ⟨hle', hnodup', hnow⟩ := hfirst
      change (m.fetch e.request).2.bound name ≤ m'.bound name at hle
      refine ⟨Nat.le_trans hle' hle, ?_, ?_⟩
      · refine List.nodup_append.mpr ⟨hnodup', hnodup, ?_⟩
        intro c hc d hd hcd
        have hbelow := (hnow c hc).2
        have habove : (m.fetch e.request).2.bound name ≤ d.toNat := (hlater d hd).1
        rw [hcd] at hbelow
        omega
      · intro c hc
        rcases List.mem_append.mp hc with hc | hc
        · exact ⟨(hnow c hc).1, Nat.lt_of_lt_of_le (hnow c hc).2 hle⟩
        · exact ⟨Nat.le_trans hle' (hlater c hc).1, (hlater c hc).2⟩

theorem serves_position?_of_ne {m m' : Memory} {es : List Exchange} (h : source.Serves m es m')
    {name : SequenceName} (hname : ∀ e ∈ es, name ≠ e.request.sequence) :
    m'.position? name = m.position? name := by
  induction es generalizing m with
  | nil =>
      obtain rfl : m' = m := h
      rfl
  | cons e es ih =>
      obtain ⟨-, hrest⟩ := h
      rw [ih hrest fun e he => hname e (List.mem_cons_of_mem _ he)]
      exact position?_fetch_of_ne m (hname e List.mem_cons_self)

end Memory

end ShardKeys
