import ShardKeys.Proofs.Pool.Uniqueness

/-! # Every call comes to an end

A source may answer as it likes, as long as its blocks reach the counter that was asked for. A block
of no use then ends inside an interval ahead of that counter, and what the next request asks for
lies behind this interval. So a call makes at most one request more than the sequence has intervals.
-/

namespace ShardKeys

namespace ExclusionSet

variable {s : ExclusionSet} {c d : Counter}

/-! ## Intervals ahead -/

/-- The intervals that begin behind a counter. -/
def ahead (s : ExclusionSet) (c : Counter) : List Interval :=
  s.intervals.filter (c < ·.lower)

theorem mem_ahead_iff {i : Interval} : i ∈ s.ahead c ↔ i ∈ s.intervals ∧ c < i.lower := by
  simp [ahead]

theorem length_ahead_le (s : ExclusionSet) (c : Counter) :
    (s.ahead c).length ≤ s.intervals.length :=
  List.length_filter_le _ _

/-- On the way up, an interval that is reached is no longer ahead. -/
theorem length_ahead_lt {i : Interval} (hi : i ∈ s.ahead c) (hcd : c ≤ d) (hd : i.lower ≤ d) :
    (s.ahead d).length < (s.ahead c).length := by
  have hfilter : s.ahead d = (s.ahead c).filter (d < ·.lower) := by
    rw [ahead, ahead, List.filter_filter]
    apply List.filter_congr
    intro j _
    have hlt : d < j.lower → c < j.lower := UInt64.lt_of_le_of_lt hcd
    simpa using hlt
  rw [hfilter, List.length_filter_lt_length_iff_exists]
  exact ⟨i, hi, by simpa using hd⟩

theorem lt_lower_of_allowed {i : Interval} (hi : i ∈ s.intervals) (hc : ¬s.excludes c)
    (hci : c ≤ i.upper) :
    c < i.lower := by
  apply UInt64.not_le.mp
  intro hlower
  exact hc (excludes_iff.mpr ⟨i, hi, hlower, hci⟩)

theorem length_intervals_le (s : ExclusionSet) : s.intervals.length ≤ UInt64.size := by
  have hfits : ∀ (i : Interval) (rest : List Interval), (i :: rest).Pairwise Interval.Before →
      i.lower.toNat + rest.length < UInt64.size := by
    intro i rest hsep
    induction rest generalizing i with
    | nil => exact i.lower.toNat_lt
    | cons j rest ih =>
        obtain ⟨hbefore, hsep⟩ := List.pairwise_cons.mp hsep
        have hij : i.upper.toNat + 1 < j.lower.toNat := hbefore j List.mem_cons_self
        have hi := UInt64.le_iff_toNat_le.mp i.ordered
        have hj := ih j hsep
        rw [List.length_cons]
        omega
  cases hs : s.intervals with
  | nil => exact Nat.zero_le _
  | cons i rest =>
      have := hfits i rest (hs ▸ s.separated)
      rw [List.length_cons]
      omega

end ExclusionSet

/-- A block reaches the counter that was asked for, if it holds any. -/
def Source.Reaches {σ : Type} (src : Source σ) : Prop :=
  ∀ w request block,
    (src.fetch w request).1 = .block block → block ≠ [] → ∃ c ∈ block, request.least ≤ c

namespace Reserve

variable {σ : Type} {s : Sequence} {r : Reserve} {request : FetchRequest} {block : List Counter}

/-! ## Refills of no use -/

/-- The most requests that a reserve makes before a counter arrives. -/
def requestsLeft (s : Sequence) (r : Reserve) : Nat :=
  match r.request? s with
  | none => 0
  | some request => (s.excluded.ahead request.least).length + 1

theorem requestsLeft_of_request? (hr : r.request? s = some request) :
    r.requestsLeft s = (s.excluded.ahead request.least).length + 1 := by
  rw [requestsLeft, hr]

theorem requestsLeft_le (s : Sequence) (r : Reserve) :
    r.requestsLeft s ≤ s.excluded.intervals.length + 1 := by
  unfold requestsLeft
  split
  · exact Nat.zero_le _
  · exact Nat.succ_le_succ (s.excluded.length_ahead_le _)

/-- The mark, and so the next request, lies behind every counter that was taken in, unless nothing
is left. -/
theorem lt_least_of_mem {request' : FetchRequest} {c : Counter} (hc : c ∈ block)
    (hexcluded : s.excluded.excludes c)
    (hr' : (r.accept s.excluded block).request? s = some request') :
    c < request'.least := by
  obtain ⟨hleast, -⟩ := request?_eq_some hr'
  have hmark : (r.accept s.excluded block).mark = markAfter r.mark block := rfl
  have hle := hleast.le
  rw [hmark] at hle
  rcases UInt64.lt_or_le c Counter.last with hlast | hlast
  · exact UInt64.lt_of_lt_of_le (lt_markAfter r.mark hc hlast) hle
  · obtain rfl := UInt64.le_antisymm (Counter.le_last c) hlast
    have hpeak := lt_peak hc
    have hlargest : request'.least = Counter.last := by
      have hbound := UInt64.le_iff_toNat_le.mp (Counter.le_last request'.least)
      rw [UInt64.le_iff_toNat_le, toNat_markAfter] at hle
      rw [← UInt64.toNat_inj]
      omega
    exact absurd (hlargest ▸ hexcluded) hleast.allowed

theorem requestsLeft_accept_lt {c : Counter} (hr : r.request? s = some request) (hc : c ∈ block)
    (hreach : request.least ≤ c) (hnone : (r.accept s.excluded block).queue = []) :
    (r.accept s.excluded block).requestsLeft s < r.requestsLeft s := by
  obtain ⟨hleast, -⟩ := request?_eq_some hr
  have hexcluded : s.excluded.excludes c := by
    by_contra hallowed
    exact queue_accept_ne_nil hc (UInt64.le_trans hleast.le hreach) hallowed hnone
  obtain ⟨i, hi, hlower, hupper⟩ := ExclusionSet.excludes_iff.mp hexcluded
  have hahead : i ∈ s.excluded.ahead request.least := by
    have hbefore := UInt64.le_trans hreach hupper
    exact ExclusionSet.mem_ahead_iff.mpr
      ⟨hi, ExclusionSet.lt_lower_of_allowed hi hleast.allowed hbefore⟩
  rw [requestsLeft_of_request? hr]
  cases hr' : (r.accept s.excluded block).request? s with
  | none =>
      rw [requestsLeft, hr']
      exact Nat.succ_pos _
  | some request' =>
      have hbehind := UInt64.le_of_lt (lt_least_of_mem hc hexcluded hr')
      rw [requestsLeft_of_request? hr']
      apply Nat.succ_lt_succ
      exact ExclusionSet.length_ahead_lt hahead (UInt64.le_trans hreach hbehind)
        (UInt64.le_trans hlower hbehind)

/-! ## Searches -/

theorem settle_ne_fruitless {answer : Answer} : r.settle s answer ≠ .error .fruitless := by
  unfold settle
  split <;> simp

/-- A search that may make all the requests that are left is not given up. -/
theorem draw_ends {src : Source σ} (hsrc : src.Reaches) {limit : Nat} (w : σ)
    (hlimit : r.requestsLeft s ≤ limit) :
    (draw src s limit r w).outcome ≠ .error .fruitless ∧
      (draw src s limit r w).exchanges.length ≤ r.requestsLeft s := by
  fun_induction draw src s limit r w with
  | case1 | case2 => simp
  | case3 r w hq request hr => simp [requestsLeft_of_request? hr] at hlimit
  | case4 r w hq request hr limit answer w' hfetch exchanges events fault hf =>
      refine ⟨?_, by simp [exchanges, requestsLeft_of_request? hr]⟩
      rintro ⟨⟩
      exact settle_ne_fruitless hf
  | case5 r w hq request hr limit answer w' hfetch exchanges events r' hf ih =>
      obtain ⟨block, rfl, hb, rfl⟩ := settle_eq_ok_iff.mp hf
      cases hq' : (r.accept s.excluded block).queue with
      | cons c rest =>
          rw [draw_of_cons src limit w' hq']
          simp [Call.following, exchanges, requestsLeft_of_request? hr]
      | nil =>
          obtain ⟨c, hc, hreach⟩ := hsrc w request block (congrArg Prod.fst hfetch) hb
          have hfewer := requestsLeft_accept_lt hr hc hreach hq'
          obtain ⟨houtcome, hlength⟩ := ih (by omega)
          refine ⟨houtcome, ?_⟩
          simp only [Call.following, exchanges, List.length_append, List.length_singleton]
          omega

theorem draw_of_le {src : Source σ} {limit : Nat} {w : σ}
    (h : (draw src s limit r w).outcome ≠ .error .fruitless) :
    ∀ limit', limit ≤ limit' → draw src s limit' r w = draw src s limit r w := by
  fun_induction draw src s limit r w with
  | case1 limit r w c rest hq => exact fun limit' _ => draw_of_cons src limit' w hq
  | case2 limit r w hq hr => exact fun limit' _ => draw_of_request?_none src limit' w hq hr
  | case3 => simp at h
  | case4 r w hq request hr limit answer w' hfetch exchanges events fault hf =>
      intro limit' hle
      obtain ⟨more, rfl⟩ : ∃ n, limit' = n + 1 := ⟨limit' - 1, by omega⟩
      have hanswer : (src.fetch w request).1 = answer := congrArg Prod.fst hfetch
      rw [draw_of_settle_error src more w hq hr (hanswer ▸ hf), hfetch]
  | case5 r w hq request hr limit answer w' hfetch exchanges events r' hf ih =>
      intro limit' hle
      obtain ⟨more, rfl⟩ : ∃ n, limit' = n + 1 := ⟨limit' - 1, by omega⟩
      have hanswer : (src.fetch w request).1 = answer := congrArg Prod.fst hfetch
      rw [draw_of_settle_ok src more w hq hr (hanswer ▸ hf), hfetch, ih h more (by omega)]

end Reserve

namespace Pool

variable {σ : Type}

theorem allocateWithin_ends {src : Source σ} (hsrc : src.Reaches) (p : Pool) (w : σ) {limit : Nat}
    (hlimit : p.reserve.requestsLeft p.sequence ≤ limit) :
    (p.allocateWithin limit src w).outcome ≠ .error .fruitless ∧
      (p.allocateWithin limit src w).exchanges.length ≤ p.reserve.requestsLeft p.sequence ∧
      ∀ limit', limit ≤ limit' → p.allocateWithin limit' src w = p.allocateWithin limit src w := by
  unfold allocateWithin
  split
  · simp
  · obtain ⟨houtcome, hlength⟩ := Reserve.draw_ends hsrc w hlimit
    refine ⟨houtcome, hlength, fun limit' hle => ?_⟩
    rw [Reserve.draw_of_le houtcome limit' hle]

/-- Over a source whose blocks reach the counter that was asked for, whatever else they hold and
whatever comes between them, a call on a pool in any state issues a counter or fails for a reason of
its own. It makes at most one request more than the sequence has intervals, and no limit above this
number has a part in what comes of it. -/
theorem allocate_terminates {src : Source σ} (hsrc : src.Reaches) (p : Pool) (w : σ) :
    let call := p.allocate src w
    call.outcome ≠ .error .fruitless ∧
      call.exchanges.length ≤ p.sequence.excluded.intervals.length + 1 ∧
      ∀ limit,
        p.sequence.excluded.intervals.length < limit → p.allocateWithin limit src w = call := by
  intro call
  have hleft : p.reserve.requestsLeft p.sequence ≤ p.sequence.excluded.intervals.length + 1 :=
    p.reserve.requestsLeft_le p.sequence
  have hround : p.sequence.excluded.intervals.length + 1 ≤ Reserve.roundLimit :=
    Nat.succ_le_succ p.sequence.excluded.length_intervals_le
  obtain ⟨houtcome, hlength, hsame⟩ := allocateWithin_ends hsrc p w hleft
  have hcall : call = p.allocateWithin (p.sequence.excluded.intervals.length + 1) src w :=
    hsame _ hround
  rw [hcall]
  exact ⟨houtcome, Nat.le_trans hlength hleft, hsame⟩

end Pool

/-- A source whose blocks hold a stale counter and the one behind the counter that was asked for. -/
def Source.leaping : Source Unit where
  fetch _ request := (.block [0, Counter.after request.least], ())

theorem Source.leaping_reaches : Source.leaping.Reaches := by
  rintro w request block hblock -
  obtain rfl := Answer.block.inj hblock
  refine ⟨Counter.after request.least, by simp, ?_⟩
  have := UInt64.le_iff_toNat_le.mp (Counter.le_last request.least)
  rw [UInt64.le_iff_toNat_le, Counter.toNat_after]
  omega

/-- The five that comes when four is asked for is excluded, and so one request more has to be
made. -/
theorem Pool.allocate_terminates_orders :
    let p : Pool := { sequence := .orders, reserve := { mark := 4 } }
    let call := p.allocate .leaping ()
    Source.leaping.Reaches ∧ call.outcome = .ok 10 ∧ call.exchanges.length = 2 ∧
      call.exchanges.length ≤ p.sequence.excluded.intervals.length + 1 ∧
      p.allocateWithin 2 .leaping () = call := by
  intro p call
  have hcount : p.sequence.excluded.intervals.length = 1 := by decide +kernel
  obtain ⟨-, hlength, hsame⟩ := allocate_terminates Source.leaping_reaches p ()
  exact ⟨Source.leaping_reaches, by decide +kernel, by decide +kernel, hlength, hsame 2 (by omega)⟩

end ShardKeys
