import ShardKeys.Proofs.Pool.Replay

/-! # Pools at the last counter

The mark lies one past the largest counter seen, and past the last counter there is none: once the
last counter has come, the mark stands on it. A pool whose sequence excludes the last counter finds
nothing allowed from there on and is done with its source. Any other pool goes on asking for the
last counter, and issues it each time it comes.
-/

namespace ShardKeys

namespace Reserve

variable {s : Sequence} {r r' : Reserve} {es : List Exchange} {log : List Event} {cs : List Counter}

/-! ## The mark on the last counter -/

theorem mark_accept_of_last (hmark : r.mark = Counter.last) (block : List Counter) :
    (r.accept s.excluded block).mark = Counter.last :=
  UInt64.le_antisymm (Counter.le_last _) (hmark ▸ le_markAfter r.mark block)

theorem mark_accept_of_mem {block : List Counter} (hlast : Counter.last ∈ block) :
    (r.accept s.excluded block).mark = Counter.last := by
  have hpeak := lt_peak hlast
  have hmark : (r.accept s.excluded block).mark = markAfter r.mark block := rfl
  rw [← UInt64.toNat_inj, hmark, toNat_markAfter]
  omega

theorem request?_at_last {request : FetchRequest} (hmark : r.mark = Counter.last)
    (hr : r.request? s = some request) :
    request.least = Counter.last ∧ ¬s.excluded.excludes Counter.last := by
  obtain ⟨hleast, -⟩ := request?_eq_some hr
  have heq : request.least = Counter.last :=
    UInt64.le_antisymm (Counter.le_last _) (hmark ▸ hleast.le)
  exact ⟨heq, heq ▸ hleast.allowed⟩

theorem Course.requests_at_last (h : Course s r es log cs r') (hmark : r.mark = Counter.last) :
    ∀ e ∈ es, e.request.least = Counter.last ∧ ¬s.excluded.excludes Counter.last := by
  induction h with
  | done r => simp
  | issue hq _ ih => exact ih hmark
  | refill hq hr hb _ ih =>
      refine List.forall_mem_cons.mpr ⟨request?_at_last hmark hr, ?_⟩
      exact ih (mark_accept_of_last hmark _)
  | fault hq hm hl _ ih =>
      intro e he
      rcases List.mem_append.mp he with he | he
      · exact request?_at_last hmark (hm e he).1
      · exact ih hmark e he

/-- Requests behind a block with the last counter ask for it again. -/
theorem Course.requests_behind_last (h : Course s r es log cs r') :
    es.Pairwise fun e e' => Counter.last ∈ e.counters →
      e'.request.least = Counter.last ∧ ¬s.excluded.excludes Counter.last := by
  induction h with
  | done r => exact .nil
  | issue hq _ ih => exact ih
  | refill hq hr hb hrest ih =>
      refine List.pairwise_cons.mpr ⟨fun e he hlast => ?_, ih⟩
      exact hrest.requests_at_last (mark_accept_of_mem hlast) e he
  | @fault r r' missed lines es log cs hq hm hl _ ih =>
      have hnone : ∀ e ∈ missed, Counter.last ∉ e.counters := by
        intro e he
        rw [(hm e he).2]
        simp
      refine List.pairwise_append.mpr ⟨?_, ih, ?_⟩
      · exact List.pairwise_of_forall_mem_list fun e he _ _ hlast => absurd hlast (hnone e he)
      · exact fun e he _ _ hlast => absurd hlast (hnone e he)

/-- A search that fails has found the sequence exhausted, or was about to make a request. -/
theorem request?_draw_of_error {σ : Type} (src : Source σ) (limit : Nat) (w : σ) {fault : PoolFault}
    (h : (draw src s limit r w).outcome = .error fault) :
    fault = .refill .exhausted ∨ (draw src s limit r w).state.1.request? s ≠ none := by
  fun_induction draw src s limit r w with
  | case1 => simp at h
  | case2 limit r w hq hr => exact .inl (by simpa using h.symm)
  | case3 r w hq request hr => exact .inr (by simp [hr])
  | case4 r w hq request hr => exact .inr (by simp [hr])
  | case5 r w hq request hr limit answer w' hfetch exchanges events r' hf ih => exact ih h

end Reserve

namespace Pool

variable {σ : Type} {p : Pool}

/-! ## What a call reports -/

/-- A pool is locked by a crash only, and so in the middle of a request. -/
theorem request?_of_poisoned_allocateWithin (limit : Nat) (src : Source σ) (w : σ)
    (hp : p.poisoned → p.reserve.request? p.sequence ≠ none) :
    (p.allocateWithin limit src w).state.1.poisoned →
      (p.allocateWithin limit src w).state.1.reserve.request? p.sequence ≠ none := by
  unfold allocateWithin
  split
  · exact hp
  · intro hcrash
    cases hout : (p.reserve.draw src p.sequence limit w).outcome with
    | ok c => simp [Call.mapState, hout] at hcrash
    | error fault =>
        rcases Reserve.request?_draw_of_error src limit w hout with rfl | hrequest
        · simp [Call.mapState, hout] at hcrash
        · exact hrequest

theorem request?_of_poisoned_runWithin (limit : Nat) (src : Source σ)
    (turns : List (List FetchRequest))
    (w : σ) (hp : p.poisoned → p.reserve.request? p.sequence ≠ none) :
    (p.runWithin limit src turns w).state.1.poisoned →
      (p.runWithin limit src turns w).state.1.reserve.request? p.sequence ≠ none := by
  induction turns generalizing p w with
  | nil => exact hp
  | cons turn turns ih =>
      rw [← sequence_allocateWithin limit src p (src.after w turn)]
      refine ih _ fun hlocked => ?_
      rw [sequence_allocateWithin]
      exact request?_of_poisoned_allocateWithin limit src _ hp hlocked

/-- A call that leaves nothing to ask for issues a counter or reports that the sequence is
exhausted. -/
theorem outcome_of_request?_none (limit : Nat) (src : Source σ) (w : σ)
    (hp : p.poisoned → p.reserve.request? p.sequence ≠ none)
    (hnone : (p.allocateWithin limit src w).state.1.reserve.request? p.sequence = none) :
    (∃ c, (p.allocateWithin limit src w).outcome = .ok c) ∨
      (p.allocateWithin limit src w).outcome = .error (.refill .exhausted) := by
  unfold allocateWithin at hnone ⊢
  split
  · next hlocked =>
      rw [if_pos hlocked] at hnone
      exact absurd hnone (hp hlocked)
  · next hopen =>
      rw [if_neg hopen] at hnone
      cases hout : (p.reserve.draw src p.sequence limit w).outcome with
      | ok c => exact .inl ⟨c, hout⟩
      | error fault =>
          rcases Reserve.request?_draw_of_error src limit w hout with rfl | hrequest
          · exact .inr hout
          · exact absurd hnone hrequest

end Pool

namespace Sequence

/-! ## The last counter -/

/-- Blocks yield the last counter each time it comes, or never. -/
theorem count_last_yields (s : Sequence) (seen : List Counter) (bs : List (List Counter)) :
    (s.yields seen bs).flatten.count Counter.last =
      if s.excluded.excludes Counter.last then 0 else bs.flatten.count Counter.last := by
  induction bs generalizing seen with
  | nil => simp [yields]
  | cons block rest ih =>
      rw [yields, List.flatten_cons, List.flatten_cons, List.count_append, List.count_append, ih]
      split
      · next hexcluded =>
          refine Nat.add_eq_zero_iff.mpr ⟨List.count_eq_zero.mpr fun hmem => ?_, rfl⟩
          exact (of_decide_eq_true (List.mem_filter.mp hmem).2).2 hexcluded
      · next hfree =>
          have hmark : s.highWater seen ≤ Counter.last.toNat := Nat.min_le_right _ _
          rw [List.count_filter]
          exact decide_eq_true ⟨hmark, hfree⟩

/-- Over any source, as long as its exchanges are `distinct` in whatever sense, the last counter
closes a pool of the sequence: it is not issued twice, no request follows the block that brought it,
and from then on a call that issues nothing reports that the sequence is exhausted. The call is any
one that follows a run on a new pool. -/
def EndsWithLast (s : Sequence) (distinct : List Exchange → Prop) : Prop :=
  ∀ (σ : Type) (src : Source σ) (turns : List (List FetchRequest)) (w w' : σ),
    let run := (Pool.ofSequence s).run src turns w
    let call := run.state.1.allocate src w'
    let exchanges := run.exchanges ++ call.exchanges
    distinct exchanges →
      (issued run.values ++ issuedBy call.outcome).count Counter.last ≤ 1 ∧
      exchanges.Pairwise (fun e _ => Counter.last ∉ e.counters) ∧
      (Counter.last ∈ received exchanges →
        (∃ c, call.outcome = .ok c) ∨ call.outcome = .error (.refill .exhausted))

end Sequence

namespace Pool

theorem run_allocate_course {σ : Type} (src : Source σ) (s : Sequence)
    (turns : List (List FetchRequest))
    (w w' : σ) :
    let run := (Pool.ofSequence s).run src turns w
    let call := run.state.1.allocate src w'
    Reserve.Course s (.fresh s) (run.exchanges ++ call.exchanges) (run.events ++ call.events)
      (issued run.values ++ issuedBy call.outcome) call.state.1.reserve := by
  intro run call
  have hsequence : run.state.1.sequence = s := sequence_runWithin Reserve.roundLimit src turns _ w
  have hcall := allocate_course src run.state.1 w'
  rw [hsequence] at hcall
  exact (run_course src turns (.ofSequence s) w).trans hcall

/-! ## Excluded or not -/

theorem endsWithLast_of_excluded {s : Sequence} (h : s.excluded.excludes Counter.last)
    (distinct : List Exchange → Prop) : s.EndsWithLast distinct := by
  intro σ src turns w w' run call exchanges _
  have hcourse :
      Reserve.Course s (.fresh s) exchanges _ (issued run.values ++ issuedBy call.outcome)
      call.state.1.reserve := run_allocate_course src s turns w w'
  have hsequence : run.state.1.sequence = s := sequence_runWithin Reserve.roundLimit src turns _ w
  have hbooks := hcourse.accounts s.highWater_nil.symm
  refine ⟨?issued, ?requests, fun hlast => ?reported⟩
  case issued =>
    have hcount := s.count_last_yields [] (blocks exchanges)
    have hfifo : _ = (s.yields [] (blocks exchanges)).flatten := hbooks.fifo
    rw [if_pos h, ← hfifo, List.count_append] at hcount
    omega
  case requests =>
    refine hcourse.requests_behind_last.imp fun hasks hlast => ?_
    exact (hasks hlast).2 h
  case reported =>
    refine outcome_of_request?_none Reserve.roundLimit src w' ?locked ?nothing
    case locked =>
      rw [hsequence]
      exact request?_of_poisoned_runWithin (p := .ofSequence s) Reserve.roundLimit src turns w
        (by simp [ofSequence])
    case nothing =>
      have hmark : call.state.1.reserve.mark = Counter.last := by
        have hpeak := lt_peak hlast
        have hhigh : call.state.1.reserve.mark.toNat = s.highWater (blocks exchanges).flatten :=
          hbooks.mark
        rw [flatten_blocks, Sequence.highWater] at hhigh
        rw [← UInt64.toNat_inj]
        omega
      rw [hsequence]
      refine Option.eq_none_iff_forall_not_mem.mpr fun request hrequest => ?_
      exact (Reserve.request?_at_last hmark hrequest).2 h

end Pool

/-- A source that hands out the last counter once, and is exhausted from then on. -/
def Source.lastOnce : Source Bool where
  fetch spent _ := (if spent then .failed .exhausted else .block [Counter.last], true)

namespace Pool

variable {s : Sequence} {p : Pool}

theorem exists_request?_of_allowed (hfree : ¬s.excluded.excludes Counter.last) (r : Reserve) :
    ∃ request, r.request? s = some request := by
  refine Option.ne_none_iff_exists'.mp fun hnone => ?_
  have hall := ExclusionSet.leastAllowed?_eq_none_iff.mp (Option.map_eq_none_iff.mp hnone)
  exact hfree (hall Counter.last (Counter.le_last _))

theorem exchanges_allocate_of_unlocked {σ : Type} (src : Source σ) (w : σ)
    (h : p.poisoned = false) :
    (p.allocate src w).exchanges =
      (p.reserve.draw src p.sequence Reserve.roundLimit w).exchanges := by
  simp only [allocate, allocateWithin, h, Call.mapState, Bool.false_eq_true, if_false]

theorem allocate_lastOnce (hq : p.reserve.queue = []) (hp : p.poisoned = false)
    (hfree : ¬p.sequence.excluded.excludes Counter.last) :
    ∃ request, (p.allocate .lastOnce false).exchanges = [⟨request, some (.block [Counter.last])⟩] ∧
      (p.allocate .lastOnce false).state.1.reserve.queue = [] ∧
      (p.allocate .lastOnce false).state.1.poisoned = false := by
  obtain ⟨request, hr⟩ := exists_request?_of_allowed hfree p.reserve
  have hqueue : (p.reserve.accept p.sequence.excluded [Counter.last]).queue = [Counter.last] := by
    rw [Reserve.queue_accept, hq]
    simp [Reserve.usable, Counter.le_last, hfree]
  have hdraw := (Reserve.draw_of_settle_ok .lastOnce UInt64.size false hq hr rfl).trans
    (congrArg (Call.following · _ _) (Reserve.draw_of_cons .lastOnce UInt64.size true hqueue))
  obtain ⟨-, hstate⟩ := allocateWithin_of_unlocked .lastOnce false hp
    (congrArg Call.outcome hdraw) (congrArg Call.state hdraw) (by simp [Call.following])
  refine ⟨request, ?_, congrArg (·.1.reserve.queue) hstate, congrArg (·.1.poisoned) hstate⟩
  rw [exchanges_allocate_of_unlocked .lastOnce false hp]
  exact congrArg Call.exchanges hdraw

theorem allocate_lastOnce_spent (hq : p.reserve.queue = []) (hp : p.poisoned = false)
    (hfree : ¬p.sequence.excluded.excludes Counter.last) :
    ∃ request, (p.allocate .lastOnce true).exchanges = [⟨request, some (.failed .exhausted)⟩] := by
  obtain ⟨request, hr⟩ := exists_request?_of_allowed hfree p.reserve
  refine ⟨request, ?_⟩
  rw [exchanges_allocate_of_unlocked .lastOnce true hp]
  exact congrArg Call.exchanges (Reserve.draw_of_settle_error .lastOnce UInt64.size true hq hr rfl)

/-- Where the last counter may be issued, it does not close the pool, even if it comes only once. -/
theorem not_endsWithLast_of_allowed (hfree : ¬s.excluded.excludes Counter.last)
    {distinct : List Exchange → Prop}
    (honce : ∀ es, received es = [Counter.last] → distinct es) : ¬s.EndsWithLast distinct := by
  intro hends
  let first := (Pool.ofSequence s).allocate .lastOnce false
  have hsequence : first.state.1.sequence = s := sequence_allocate .lastOnce _ false
  obtain ⟨request, hfirst, hqueue, hopen⟩ := allocate_lastOnce (p := .ofSequence s) rfl rfl hfree
  obtain ⟨request', hsecond⟩ :=
    allocate_lastOnce_spent (p := first.state.1) hqueue hopen (by rwa [hsequence])
  have hexchanges : (first.exchanges ++ []) ++ (first.state.1.allocate .lastOnce true).exchanges =
      [⟨request, some (.block [Counter.last])⟩, ⟨request', some (.failed .exhausted)⟩] := by
    rw [hfirst, hsecond]
    rfl
  obtain ⟨-, hrequests, -⟩ :=
    hends Bool .lastOnce [[]] false true (honce _ (congrArg received hexchanges))
  change ((first.exchanges ++ []) ++ (first.state.1.allocate .lastOnce true).exchanges).Pairwise _
    at hrequests
  rw [hexchanges] at hrequests
  exact List.rel_of_pairwise_cons hrequests (List.mem_singleton_self _) (List.mem_singleton_self _)

end Pool

/-- The last counter closes a pool just if the sequence excludes it, and it makes no difference
whether a counter comes once in a block or once at all. Otherwise every request that follows the
last counter asks for it again; and it is issued, or waits to be, as often as it came. -/
theorem Sequence.endsWithLast_iff (s : Sequence) :
    (s.EndsWithLast (fun es => ∀ e ∈ es, e.counters.Nodup) ↔ s.excluded.excludes Counter.last) ∧
      (s.EndsWithLast (fun es => (received es).Nodup) ↔ s.excluded.excludes Counter.last) ∧
      ∀ (σ : Type) (src : Source σ) (turns : List (List FetchRequest)) (w : σ),
        let run := (Pool.ofSequence s).run src turns w
        run.exchanges.Pairwise (fun e e' => Counter.last ∈ e.counters →
          e'.request.least = Counter.last ∧ ¬s.excluded.excludes Counter.last) ∧
        (issued run.values ++ run.state.1.reserve.queue).count Counter.last =
          if s.excluded.excludes Counter.last then 0
          else (received run.exchanges).count Counter.last := by
  have hends : ∀ {distinct : List Exchange → Prop}, (∀ es, (received es).Nodup → distinct es) →
      (s.EndsWithLast distinct ↔ s.excluded.excludes Counter.last) := by
    intro distinct hdistinct
    refine ⟨fun hends => ?_, fun h => Pool.endsWithLast_of_excluded h distinct⟩
    by_contra hfree
    refine Pool.not_endsWithLast_of_allowed hfree (fun es honce => hdistinct es ?_) hends
    rw [honce]
    exact List.nodup_singleton _
  refine ⟨hends fun es h => ?blocks, hends fun es h => h, fun σ src turns w => ?_⟩
  case blocks => exact (List.nodup_flatMap.mp h).1
  intro run
  refine ⟨(Pool.run_course src turns (.ofSequence s) w).requests_behind_last, ?_⟩
  have hfifo : issued run.values ++ run.state.1.reserve.queue =
      (s.yields [] (blocks run.exchanges)).flatten := (Pool.accounts_run src s turns w).fifo
  rw [hfifo, s.count_last_yields, flatten_blocks]

/-- Behind the last counter a pool asks for it again, although no counter comes twice; and where it
does come twice, the pool issues it twice. -/
theorem Pool.run_repeats_last :
    let once := (Pool.ofSequence .orders).run Rehearsal.source [[], []]
      (.playing [.block [Counter.last], .failed .exhausted])
    let twice := (Pool.ofSequence .orders).run Rehearsal.source [[], []]
      (.playing [.block [Counter.last], .block [Counter.last]])
    once.exchanges.map Exchange.counters = [[Counter.last], []] ∧
      once.exchanges.map (·.request.least) = [3, Counter.last] ∧
      once.values = [.ok Counter.last, .error (.refill .exhausted)] ∧
      twice.exchanges.map Exchange.counters = [[Counter.last], [Counter.last]] ∧
      twice.exchanges.map (·.request.least) = [3, Counter.last] ∧
      twice.values = [.ok Counter.last, .ok Counter.last] := by
  decide +kernel

end ShardKeys
