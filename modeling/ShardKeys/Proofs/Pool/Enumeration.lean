import Mathlib.Data.Nat.Count
import ShardKeys.Proofs.Pool.Blocks
import ShardKeys.Proofs.Pool.Uniqueness

/-! # A pool that has its sequence to itself

Over the source in memory such a pool issues the allowed counters one after the other and leaves
none out. Blocks end before, inside or behind excluded ranges, as the size of the pool has it; the
counters issued do not depend on it.
-/

namespace ShardKeys

/-- An entry of the numbers below a bound that satisfy `p` has as many of them below it as come
before it in the list. -/
theorem count_of_getElem?_filter_range {p : Nat → Prop} [DecidablePred p] {n k x : Nat}
    (h : ((List.range n).filter (fun i => p i))[k]? = some x) : p x ∧ Nat.count p x = k := by
  induction n with
  | zero => simp at h
  | succ n ih =>
      have hlength : ((List.range n).filter (fun i => p i)).length = Nat.count p n := by
        rw [← List.countP_eq_length_filter, Nat.count]
      rw [List.range_succ, List.filter_append, List.getElem?_append, hlength] at h
      split at h
      · exact ih h
      · next hk =>
          by_cases hp : p n
          · obtain ⟨hzero, rfl⟩ : k - Nat.count p n = 0 ∧ n = x := by
              simpa [hp, List.getElem?_singleton] using h
            exact ⟨hp, by omega⟩
          · simp [hp] at h

namespace Sequence

/-! ## Allowed counters in order -/

/-- The allowed counters below a bound, in ascending order. -/
def allowedBelow (s : Sequence) (n : Nat) : List Nat :=
  (List.range n).filter fun i => s.Allows (UInt64.ofNat i)

theorem allowedBelow_add (s : Sequence) (a n : Nat) :
    s.allowedBelow (a + n) =
      s.allowedBelow a ++ (List.range' a n).filter fun i => s.Allows (UInt64.ofNat i) := by
  rw [allowedBelow, allowedBelow, List.range_add, List.filter_append, List.range'_eq_map_range]

theorem allowedBelow_eq {s : Sequence} {a b : Nat} (hab : a ≤ b)
    (h : ∀ i, a ≤ i → i < b → ¬s.Allows (UInt64.ofNat i)) :
    s.allowedBelow b = s.allowedBelow a := by
  obtain ⟨n, rfl⟩ := Nat.exists_eq_add_of_le hab
  rw [allowedBelow_add, List.filter_eq_nil_iff.mpr, List.append_nil]
  intro i hi
  have := List.mem_range'_1.mp hi
  simpa using h i this.1 this.2

theorem allowedBelow_start (s : Sequence) : s.allowedBelow s.start.toNat = [] := by
  rw [allowedBelow, List.filter_eq_nil_iff]
  intro i hi hallows
  have hlt := List.mem_range.mp hi
  have hle := UInt64.le_iff_toNat_le.mp (of_decide_eq_true hallows).1
  have := s.start.toNat_lt
  rw [UInt64.toNat_ofNat', Nat.mod_eq_of_lt (by omega)] at hle
  omega

/-- A block that starts on the least allowed counter from the mark on completes the allowed counters
up to its end. -/
theorem allowedBelow_block {s : Sequence} {mark least : Counter} {count : Nat}
    (hstart : s.start ≤ mark) (hleast : s.excluded.IsLeastAllowed mark least)
    (hfits : least.toNat + count ≤ Counter.last.toNat) :
    s.allowedBelow (least.toNat + count) =
      s.allowedBelow mark.toNat ++
        (Reserve.usable mark s.excluded (Counter.block least count)).map UInt64.toNat := by
  have hle := UInt64.le_iff_toNat_le.mp hleast.le
  have hskip : s.allowedBelow least.toNat = s.allowedBelow mark.toNat := by
    apply allowedBelow_eq hle
    intro i hmark hlt hallows
    have := least.toNat_lt
    have hi : (UInt64.ofNat i).toNat = i := by
      rw [UInt64.toNat_ofNat', Nat.mod_eq_of_lt (by omega)]
    apply hallows.2
    apply hleast.excluded
    · rwa [UInt64.le_iff_toNat_le, hi]
    · rwa [UInt64.lt_iff_toNat_lt, hi]
  rw [allowedBelow_add, hskip, ← Counter.map_toNat_block hfits, List.filter_map]
  congr 2
  apply List.filter_congr
  intro c hc
  have hmark : mark ≤ c := by
    rw [UInt64.le_iff_toNat_le]
    have := (Counter.mem_block hfits).mp hc
    omega
  have hc' : s.start ≤ c := UInt64.le_trans hstart hmark
  simp [Allows, hmark, hc']

end Sequence

theorem Memory.position?_after_of_ne {m : Memory} {turn : List FetchRequest} {name : SequenceName}
    (h : ∀ request ∈ turn, request.sequence ≠ name) :
    (source.after m turn).position? name = m.position? name := by
  induction turn generalizing m with
  | nil => rfl
  | cons request turn ih =>
      obtain ⟨hfirst, hrest⟩ := List.forall_mem_cons.mp h
      exact (ih (m := (m.fetch request).2) hrest).trans (position?_fetch_of_ne m hfirst.symm)

namespace Reserve

/-! ## One refill -/

theorem peak_le {seen : List Counter} {n : Nat} (h : ∀ c ∈ seen, c.toNat < n) : peak seen ≤ n := by
  induction seen with
  | nil => simp
  | cons c seen ih =>
      rw [peak_cons]
      have hc := h c List.mem_cons_self
      have hrest := ih fun d hd => h d (List.mem_cons_of_mem _ hd)
      omega

theorem toNat_markAfter_block {mark first : Counter} {count : Nat} (hmark : mark ≤ first)
    (hcount : 0 < count) (hfits : first.toNat + count ≤ Counter.last.toNat) :
    (markAfter mark (Counter.block first count)).toNat = first.toNat + count := by
  have hle := UInt64.le_iff_toNat_le.mp hmark
  have hmem := fun c => Counter.mem_block (c := c) hfits
  have hupper : peak (Counter.block first count) ≤ first.toNat + count :=
    peak_le fun c hc => ((hmem c).mp hc).2
  have hlast : (UInt64.ofNat (first.toNat + count - 1)).toNat = first.toNat + count - 1 := by
    have := Counter.toNat_last
    rw [UInt64.toNat_ofNat', Nat.mod_eq_of_lt (by omega)]
  have hlower := lt_peak ((hmem (UInt64.ofNat (first.toNat + count - 1))).mpr (by omega))
  rw [hlast] at hlower
  rw [toNat_markAfter]
  omega

/-- Where a sequence stands that only one pool draws from: at the mark of that pool. -/
def StandsAt (s : Sequence) (r : Reserve) (m : Memory) : Prop :=
  (m.position? s.name).getD s.start = r.mark

/-- Nothing waits, and no block of allowed counters is left. -/
def Spent (s : Sequence) (r : Reserve) : Prop :=
  r.queue = [] ∧ ∀ least, s.excluded.leastAllowed? r.mark = some least →
    Counter.last.toNat < least.toNat + s.poolSize.toNat

/-- A round trip brought the block from `first` on, where the sequence stood or further on, as the
request asks for. The block is taken in, and its end is the new mark, where the sequence stands from
now on. -/
structure Refilled (s : Sequence) (r : Reserve) (m : Memory) (request : FetchRequest)
    (first : Counter) :
    Prop where
  start : first.toNat = max (m.standing request).toNat request.least.toNat
  settle : r.settle s (m.fetch request).1 =
    .ok (r.accept s.excluded (Counter.block first s.poolSize.toNat))
  mark : (r.accept s.excluded (Counter.block first s.poolSize.toNat)).mark.toNat =
    first.toNat + s.poolSize.toNat
  stands : (r.accept s.excluded (Counter.block first s.poolSize.toNat)).StandsAt s
    (m.fetch request).2

/-- What a reserve asks the source in memory for either would pass the last counter, or refills
it. -/
theorem fetch_refills {s : Sequence} {r : Reserve} {request : FetchRequest} (m : Memory)
    (hr : r.request? s = some request) :
    (m.fetch request = (.failed .exhausted, m.moveTo s.name (m.standing request)) ∧
      Counter.last.toNat < max (m.standing request).toNat request.least.toNat + s.poolSize.toNat) ∨
    ∃ first, r.Refilled s m request first := by
  obtain ⟨hleast, hrequest⟩ := request?_eq_some hr
  have hname : request.sequence = s.name := by rw [hrequest]
  have hcount : request.count = s.poolSize := by rw [hrequest]
  have hcases := Memory.fetch_cases m request
  rw [hname, hcount] at hcases
  rcases hcases with hfailed | ⟨first, next, hfetch, hfirst, hnext⟩
  · exact .inl hfailed
  · have hfits := hnext ▸ UInt64.le_iff_toNat_le.mp (Counter.le_last next)
    have habove : r.mark ≤ first := by
      have hskip := UInt64.le_iff_toNat_le.mp hleast.le
      rw [UInt64.le_iff_toNat_le]
      omega
    have hblock : Counter.block first s.poolSize.toNat ≠ [] := by
      rw [← List.length_pos_iff, Counter.length_block]
      exact s.poolSize_pos
    have hmark : (r.accept s.excluded (Counter.block first s.poolSize.toNat)).mark.toNat =
        first.toNat + s.poolSize.toNat :=
      toNat_markAfter_block habove s.poolSize_pos hfits
    refine .inr ⟨first, hfirst, ?settle, hmark, ?stands⟩
    case settle =>
      rw [hfetch]
      exact settle_eq_ok_iff.mpr ⟨_, rfl, hblock, rfl⟩
    case stands =>
      rw [hfetch, StandsAt, Memory.position?_moveTo, if_pos rfl, Option.getD_some]
      exact UInt64.toNat_inj.mp (hnext.trans hmark.symm)

section Draw

variable {s : Sequence} {r : Reserve} {m : Memory}

theorem standing_of_standsAt (hm : r.StandsAt s m) {request : FetchRequest}
    (hr : r.request? s = some request) :
    m.standing request = r.mark := by
  rw [(request?_eq_some hr).2]
  exact hm

theorem Refilled.fits {request : FetchRequest} {first : Counter}
    (h : r.Refilled s m request first) :
    first.toNat + s.poolSize.toNat ≤ Counter.last.toNat :=
  h.mark ▸ UInt64.le_iff_toNat_le.mp (Counter.le_last _)

theorem Refilled.mark_le {request : FetchRequest} {first : Counter}
    (h : r.Refilled s m request first)
    (hr : r.request? s = some request) : r.mark ≤ first := by
  have hstart := h.start
  have hleast := UInt64.le_iff_toNat_le.mp (request?_eq_some hr).1.le
  rw [UInt64.le_iff_toNat_le]
  omega

/-- Where the sequence stands at the mark, a block starts with the counter that was asked for. -/
theorem Refilled.first_eq {request : FetchRequest} {first : Counter}
    (h : r.Refilled s m request first)
    (hm : r.StandsAt s m) (hr : r.request? s = some request) : first = request.least := by
  have hle := UInt64.le_iff_toNat_le.mp (request?_eq_some hr).1.le
  have hfirst := h.start
  rw [standing_of_standsAt hm hr] at hfirst
  exact UInt64.toNat_inj.mp (by omega)

theorem Refilled.queue_ne_nil {request : FetchRequest} (h : r.Refilled s m request request.least)
    (hr : r.request? s = some request) :
    (r.accept s.excluded (Counter.block request.least s.poolSize.toNat)).queue ≠ [] := by
  obtain ⟨hleast, -⟩ := request?_eq_some hr
  have hpos := s.poolSize_pos
  have hmem : request.least ∈ Counter.block request.least s.poolSize.toNat :=
    (Counter.mem_block h.fits).mpr (by omega)
  exact queue_accept_ne_nil hmem hleast.le hleast.allowed

/-- A search over the source in memory with nothing waiting: it fails after the one request that
there is to make, if there is one, and a reserve that has its sequence to itself is spent then; or a
refill is its first step. -/
theorem draw_memory_cases (m : Memory) (hq : r.queue = []) (limit : Nat) :
    ((r.draw Memory.source s (limit + 1) m).outcome = .error (.refill .exhausted) ∧
      (r.draw Memory.source s (limit + 1) m).exchanges.map Exchange.request =
        (r.request? s).toList ∧
      (r.draw Memory.source s (limit + 1) m).state.1 = r ∧
      (r.StandsAt s m → r.Spent s ∧ r.StandsAt s (r.draw Memory.source s (limit + 1) m).state.2)) ∨
    ∃ request first, r.request? s = some request ∧ r.Refilled s m request first ∧
      r.draw Memory.source s (limit + 1) m =
        ((r.accept s.excluded (Counter.block first s.poolSize.toNat)).draw Memory.source s limit
            (m.fetch request).2).following
          [⟨request, some (m.fetch request).1⟩] (r.settleEvents s request (m.fetch request).1) := by
  cases hr : r.request? s with
  | none =>
      rw [draw_of_request?_none Memory.source _ m hq hr]
      refine .inl ⟨rfl, rfl, rfl, fun hm => ⟨⟨hq, ?_⟩, hm⟩⟩
      simp [Option.map_eq_none_iff.mp hr]
  | some request =>
      rcases fetch_refills m hr with ⟨hfetch, hover⟩ | ⟨first, hrefilled⟩
      · have hf : r.settle s (Memory.source.fetch m request).1 = .error (.refill .exhausted) := by
          change r.settle s (m.fetch request).1 = _
          rw [hfetch]
          rfl
        rw [draw_of_settle_error Memory.source limit m hq hr hf]
        refine .inl ⟨rfl, rfl, rfl, fun hm => ⟨⟨hq, ?_⟩, ?_⟩⟩
        · intro least hleast
          have hrequest : request.least = least := by
            rw [request?, hleast, Option.map_some] at hr
            exact (congrArg FetchRequest.least (Option.some.inj hr)).symm
          have hle := UInt64.le_iff_toNat_le.mp (request?_eq_some hr).1.le
          rw [standing_of_standsAt hm hr] at hover
          rw [← hrequest]
          omega
        · change r.StandsAt s (m.fetch request).2
          rw [hfetch, StandsAt, Memory.position?_moveTo, if_pos rfl, Option.getD_some]
          exact standing_of_standsAt hm hr
      · exact .inr ⟨request, first, rfl, hrefilled,
          draw_of_settle_ok Memory.source limit m hq hr hrefilled.settle⟩

/-- A reserve that has its sequence to itself fails to draw once it is spent, and stays spent. -/
theorem draw_of_spent (hm : r.StandsAt s m) (hspent : r.Spent s) (limit : Nat) :
    ∃ m', r.StandsAt s m' ∧ (r.draw Memory.source s (limit + 1) m).outcome =
        .error (.refill .exhausted) ∧
      (r.draw Memory.source s (limit + 1) m).state = (r, m') := by
  obtain ⟨hq, hend⟩ := hspent
  rcases draw_memory_cases m hq limit with
    ⟨houtcome, -, hstate, hstands⟩ | ⟨request, first, hr, hrefilled, -⟩
  · exact ⟨_, (hstands hm).2, houtcome, Prod.ext hstate rfl⟩
  · obtain ⟨least, hleast, rfl⟩ := Option.map_eq_some_iff.mp hr
    have hfirst : first = least := hrefilled.first_eq hm hr
    have hfits := hrefilled.fits
    have hover := hend least hleast
    rw [hfirst] at hfits
    omega

/-- Before that, a reserve with nothing waiting fetches a block whose end is the new mark and issues
the first of its counters of use. -/
theorem draw_of_not_spent (hm : r.StandsAt s m) (hq : r.queue = []) (hleft : ¬r.Spent s)
    (limit : Nat) :
    ∃ (least : Counter) (c : Counter) (rest : List Counter) (r' : Reserve) (m' : Memory),
      s.excluded.IsLeastAllowed r.mark least ∧
      least.toNat + s.poolSize.toNat = r'.mark.toNat ∧
      usable r.mark s.excluded (Counter.block least s.poolSize.toNat) = c :: rest ∧
      r'.queue = rest ∧ r'.StandsAt s m' ∧
      (r.draw Memory.source s (limit + 1) m).outcome = .ok c ∧
      (r.draw Memory.source s (limit + 1) m).state = (r', m') := by
  rcases draw_memory_cases m hq limit with
    ⟨-, -, -, hspent⟩ | ⟨request, first, hr, hrefilled, hdraw⟩
  · exact absurd (hspent hm).1 hleft
  · obtain rfl := hrefilled.first_eq hm hr
    obtain ⟨hleast, -⟩ := request?_eq_some hr
    have hqueue := queue_accept r s.excluded (Counter.block request.least s.poolSize.toNat)
    obtain ⟨c, rest, hcons⟩ := List.exists_cons_of_ne_nil (hrefilled.queue_ne_nil hr)
    rw [hcons, hq, List.nil_append] at hqueue
    rw [hdraw, draw_of_cons Memory.source limit _ hcons]
    let r' : Reserve :=
      { r.accept s.excluded (Counter.block request.least s.poolSize.toNat) with queue := rest }
    exact ⟨request.least, c, rest, r', _, hleast, hrefilled.mark.symm, hqueue.symm, rfl,
      hrefilled.stands, rfl, rfl⟩

end Draw

end Reserve

namespace Pool

/-! ## Calls -/

/-- A pool that has its sequence to itself and has issued some counters: followed by those that
wait, they are the allowed counters below the mark. -/
structure Sole (s : Sequence) (taken : List Counter) (p : Pool) (m : Memory) : Prop where
  sequence : p.sequence = s
  unlocked : p.poisoned = false
  start_le : s.start ≤ p.reserve.mark
  stands : p.reserve.StandsAt s m
  enumerates : (taken ++ p.reserve.queue).map UInt64.toNat =
    s.allowedBelow p.reserve.mark.toNat

theorem sole_ofSequence (s : Sequence) : Sole s [] (.ofSequence s) {} where
  sequence := rfl
  unlocked := rfl
  start_le := UInt64.le_refl _
  stands := rfl
  enumerates := (s.allowedBelow_start).symm

theorem Sole.after {s : Sequence} {taken : List Counter} {p : Pool} {m : Memory}
    (h : Sole s taken p m) {turn : List FetchRequest}
    (hturn : ∀ request ∈ turn, request.sequence ≠ s.name) :
    Sole s taken p (Memory.source.after m turn) := by
  have hstands : p.reserve.StandsAt s (Memory.source.after m turn) := by
    rw [Reserve.StandsAt, Memory.position?_after_of_ne hturn]
    exact h.stands
  exact { h with stands := hstands }

theorem allocate_of_unlocked {σ : Type} (src : Source σ) {p : Pool} (w : σ)
    (h : p.poisoned = false) {outcome : Except PoolFault Counter} {r : Reserve} {w' : σ}
    (houtcome : (p.reserve.draw src p.sequence Reserve.roundLimit w).outcome = outcome)
    (hstate : (p.reserve.draw src p.sequence Reserve.roundLimit w).state = (r, w'))
    (hcrash : outcome ≠ .error .crashed) :
    (p.allocate src w).outcome = outcome ∧
      (p.allocate src w).state = ({ p with reserve := r, poisoned := false }, w') :=
  allocateWithin_of_unlocked src w h houtcome hstate hcrash

theorem Sole.allocate_of_spent {s : Sequence} {taken : List Counter} {p : Pool} {m : Memory}
    (h : Sole s taken p m) (hspent : p.reserve.Spent s) :
    (p.allocate Memory.source m).outcome = .error (.refill .exhausted) ∧
      (p.allocate Memory.source m).state.1.reserve.Spent s ∧
      Sole s taken (p.allocate Memory.source m).state.1 (p.allocate Memory.source m).state.2 := by
  obtain ⟨m', hm', houtcome, hstate⟩ := Reserve.draw_of_spent h.stands hspent UInt64.size
  rw [← h.sequence] at houtcome hstate
  obtain ⟨hout, hst⟩ :=
    allocate_of_unlocked Memory.source m h.unlocked houtcome hstate (by simp)
  rw [hst]
  exact ⟨hout, hspent, { h with unlocked := rfl, stands := hm' }⟩

theorem Sole.allocate_of_not_spent {s : Sequence} {taken : List Counter} {p : Pool} {m : Memory}
    (h : Sole s taken p m) (hleft : ¬p.reserve.Spent s) :
    ∃ c, (p.allocate Memory.source m).outcome = .ok c ∧
      Sole s (taken ++ [c]) (p.allocate Memory.source m).state.1
        (p.allocate Memory.source m).state.2 := by
  cases hq : p.reserve.queue with
  | cons c rest =>
      have hdraw := Reserve.draw_of_cons Memory.source (s := p.sequence) Reserve.roundLimit m hq
      obtain ⟨hout, hst⟩ := allocate_of_unlocked Memory.source m h.unlocked
        (congrArg Call.outcome hdraw) (congrArg Call.state hdraw) (by simp)
      have henum := h.enumerates
      rw [hq] at henum
      rw [hst]
      exact ⟨c, hout, h.sequence, rfl, h.start_le, h.stands, by simpa using henum⟩
  | nil =>
      obtain ⟨least, c, rest, r', m', hleast, hend, hcons, hrest, hm', houtcome, hstate⟩ :=
        Reserve.draw_of_not_spent h.stands hq hleft UInt64.size
      rw [← h.sequence] at houtcome hstate
      obtain ⟨hout, hst⟩ :=
        allocate_of_unlocked Memory.source m h.unlocked houtcome hstate (by simp)
      have henum := h.enumerates
      rw [hq, List.append_nil] at henum
      have hfits : least.toNat + s.poolSize.toNat ≤ Counter.last.toNat := by
        rw [hend]
        exact UInt64.le_iff_toNat_le.mp (Counter.le_last r'.mark)
      have hle : s.start ≤ r'.mark := by
        have hstart := UInt64.le_iff_toNat_le.mp h.start_le
        have hskip := UInt64.le_iff_toNat_le.mp hleast.le
        rw [UInt64.le_iff_toNat_le]
        omega
      rw [hst]
      refine ⟨c, hout, h.sequence, rfl, hle, hm', ?_⟩
      rw [← hend, Sequence.allowedBelow_block h.start_le hleast hfits, hcons, ← henum, hrest]
      simp

/-! ## Runs -/

theorem Sole.run_of_spent {s : Sequence} {taken : List Counter} {p : Pool} {m : Memory}
    (h : Sole s taken p m) (hspent : p.reserve.Spent s) {turns : List (List FetchRequest)}
    (hturns : ∀ turn ∈ turns, ∀ request ∈ turn, request.sequence ≠ s.name) :
    ∀ c, .ok c ∉ (p.run Memory.source turns m).values := by
  induction turns generalizing p m with
  | nil => simp [run, runWithin, Call.each]
  | cons turn turns ih =>
      obtain ⟨hturn, hrest⟩ := List.forall_mem_cons.mp hturns
      obtain ⟨hout, hspent', h'⟩ := (h.after hturn).allocate_of_spent hspent
      intro c hc
      rw [run_cons] at hc
      rcases List.mem_cons.mp hc with hc | hc
      · rw [hout] at hc
        simp at hc
      · exact ih h' hspent' hrest c hc

/-- The call that succeeds as the next one after `taken` and some more issues the entry of that
index in the list of allowed counters. -/
theorem Sole.run {s : Sequence} {taken : List Counter} {p : Pool} {m : Memory}
    (h : Sole s taken p m) {turns : List (List FetchRequest)}
    (hturns : ∀ turn ∈ turns, ∀ request ∈ turn, request.sequence ≠ s.name) {k : Nat} {c : Counter}
    (hk : (p.run Memory.source turns m).values[k]? = some (.ok c)) :
    ∃ n : Nat, (s.allowedBelow n)[taken.length + k]? = some c.toNat := by
  induction turns generalizing p m taken k with
  | nil => simp [Pool.run, runWithin, Call.each] at hk
  | cons turn turns ih =>
      obtain ⟨hturn, hrest⟩ := List.forall_mem_cons.mp hturns
      have hafter := h.after hturn
      by_cases hspent : p.reserve.Spent s
      · exact absurd (List.mem_of_getElem? hk) (h.run_of_spent hspent hturns c)
      · obtain ⟨d, hout, h'⟩ := hafter.allocate_of_not_spent hspent
        rw [run_cons] at hk
        cases k with
        | zero =>
            obtain rfl : d = c := by simpa [hout] using hk
            refine ⟨(p.allocate Memory.source
              (Memory.source.after m turn)).state.1.reserve.mark.toNat, ?_⟩
            rw [← h'.enumerates]
            simp
        | succ k =>
            obtain ⟨n, hn⟩ := ih h' hrest hk
            refine ⟨n, ?_⟩
            rw [← hn]
            simp only [List.length_append, List.length_singleton]
            congr 1
            omega

theorem allows_of_run {s : Sequence} {turns : List (List FetchRequest)}
    (hturns : ∀ turn ∈ turns, ∀ request ∈ turn, request.sequence ≠ s.name) {k : Nat} {c : Counter}
    (hk : ((Pool.ofSequence s).run Memory.source turns {}).values[k]? = some (.ok c)) :
    s.Allows c ∧ Nat.count (fun i => s.Allows (UInt64.ofNat i)) c.toNat = k := by
  obtain ⟨n, hn⟩ := (sole_ofSequence s).run hturns hk
  simpa [UInt64.ofNat_toNat] using count_of_getElem?_filter_range hn

/-- Calls on a new pool over a new source in memory that others use for other sequences only. The
call of index `k`, if it succeeds, issues the allowed counter with exactly `k` allowed counters
below it; calls for keys return these counters reversed; and another such pool for a sequence with
the same start and the same exclusions issues the same counters in the same order for as long as
both succeed, whatever their sizes. -/
theorem run_enumerates (s : Sequence) (turns : List (List FetchRequest))
    (hturns : ∀ turn ∈ turns, ∀ request ∈ turn, request.sequence ≠ s.name) :
    let values := ((Pool.ofSequence s).run Memory.source turns {}).values
    (∀ (k : Nat) (c : Counter), values[k]? = some (.ok c) →
      s.Allows c ∧ Nat.count (fun i => s.Allows (UInt64.ofNat i)) c.toNat = k) ∧
    ((Pool.ofSequence s).runKeys Memory.source turns {}).values =
      values.map (·.map Counter.toKey) ∧
    ∀ (t : Sequence) (turns' : List (List FetchRequest)), t.start = s.start →
      t.excluded = s.excluded →
      (∀ turn ∈ turns', ∀ request ∈ turn, request.sequence ≠ t.name) →
      ∀ (k : Nat) (c d : Counter), values[k]? = some (.ok c) →
        ((Pool.ofSequence t).run Memory.source turns' {}).values[k]? = some (.ok d) → c = d := by
  intro values
  refine ⟨fun k c hc => allows_of_run hturns hc, values_runKeys Memory.source turns _ _, ?_⟩
  intro t turns' hstart hexcluded hturns' k c d hc hd
  obtain ⟨hallows, hcount⟩ := allows_of_run hturns hc
  obtain ⟨hallows', hcount'⟩ := allows_of_run hturns' hd
  have hsame : ∀ x, t.Allows x ↔ s.Allows x := by
    intro x
    rw [Sequence.Allows, Sequence.Allows, hstart, hexcluded]
  simp only [hsame] at hallows' hcount'
  apply UInt64.toNat_inj.mp
  apply Nat.count_injective (p := fun i => s.Allows (UInt64.ofNat i))
  · simpa using hallows
  · simpa using hallows'
  · rw [hcount, hcount']

theorem run_enumerates_orders :
    let turns : List (List FetchRequest) := [[], [⟨⟨none, "items"⟩, 1, 1, 5⟩], [], [], []]
    let single : Sequence := { Sequence.orders with poolSize := 1, poolSize_pos := by decide }
    let run := (Pool.ofSequence .orders).run Memory.source turns {}
    (∀ turn ∈ turns, ∀ request ∈ turn, request.sequence ≠ Sequence.orders.name) ∧
      run.values = [.ok 3, .ok 4, .ok 9, .ok 10, .ok 11] ∧
      Sequence.orders.Allows 9 ∧
      Nat.count (fun i => Sequence.orders.Allows (UInt64.ofNat i)) 9 = 2 ∧
      ∀ (k : Nat) (c d : Counter), run.values[k]? = some (.ok c) →
        ((Pool.ofSequence single).run Memory.source turns {}).values[k]? = some (.ok d) →
          c = d := by
  intro turns single run
  have hturns : ∀ turn ∈ turns, ∀ request ∈ turn, request.sequence ≠ Sequence.orders.name := by
    decide
  have hvalues : run.values = [.ok 3, .ok 4, .ok 9, .ok 10, .ok 11] := by decide +kernel
  obtain ⟨hkth, -, hsame⟩ := run_enumerates .orders turns hturns
  obtain ⟨hallows, hcount⟩ := hkth 2 9 (congrArg (·[2]?) hvalues)
  exact ⟨hturns, hvalues, hallows, hcount, hsame single turns rfl rfl hturns⟩

end Pool

end ShardKeys
