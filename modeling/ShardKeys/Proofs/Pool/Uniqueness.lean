import Mathlib.Data.List.Nodup
import ShardKeys.Pool.Rehearsal
import ShardKeys.Proofs.Exclusion.Search
import ShardKeys.Proofs.Pool.Accounting

/-! # A pool issues no counter twice

Nothing is assumed of the order of the counters that a source hands out: a block may be stale,
overlap earlier blocks or go backwards. The mark alone keeps what was seen before from coming back.
-/

namespace ShardKeys

namespace Sequence

/-- A counter that the sequence may issue: not before its start, and not excluded. -/
def Allows (s : Sequence) (c : Counter) : Prop :=
  s.start ≤ c ∧ ¬s.excluded.excludes c

instance (s : Sequence) (c : Counter) : Decidable (s.Allows c) :=
  inferInstanceAs (Decidable (_ ∧ _))

/-! ## Yields -/

theorem start_le_highWater (s : Sequence) (seen : List Counter) :
    s.start.toNat ≤ s.highWater seen := by
  have := s.start_lt
  simp only [highWater, Counter.toNat_last]
  omega

theorem highWater_le_append (s : Sequence) (seen more : List Counter) :
    s.highWater seen ≤ s.highWater (seen ++ more) := by
  simp only [highWater, peak_append]
  omega

theorem lt_highWater (s : Sequence) {seen : List Counter} {c : Counter} (hc : c ∈ seen)
    (hlast : c < Counter.last) : c.toNat < s.highWater seen := by
  have hpeak := lt_peak hc
  rw [UInt64.lt_iff_toNat_lt] at hlast
  simp only [highWater]
  omega

/-- What a block yields was not below the mark, is not excluded, and came with some block. -/
theorem of_mem_yields {s : Sequence} {seen : List Counter} {bs : List (List Counter)} {c : Counter}
    (hc : c ∈ (s.yields seen bs).flatten) :
    s.highWater seen ≤ c.toNat ∧ ¬s.excluded.excludes c ∧ c ∈ bs.flatten := by
  induction bs generalizing seen with
  | nil => simp [yields] at hc
  | cons block rest ih =>
      rw [yields, List.flatten_cons, List.mem_append] at hc
      rw [List.flatten_cons, List.mem_append]
      rcases hc with hc | hc
      · obtain ⟨hblock, hkept⟩ := List.mem_filter.mp hc
        obtain ⟨hmark, hexcl⟩ := of_decide_eq_true hkept
        exact ⟨hmark, hexcl, .inl hblock⟩
      · obtain ⟨hmark, hexcl, hrest⟩ := ih hc
        exact ⟨Nat.le_trans (s.highWater_le_append seen block) hmark, hexcl, .inr hrest⟩

theorem yields_sublist (s : Sequence) (seen : List Counter) (bs : List (List Counter)) :
    (s.yields seen bs).flatten.Sublist bs.flatten := by
  induction bs generalizing seen with
  | nil => exact .slnil
  | cons block rest ih => exact List.filter_sublist.append (ih _)

theorem allows_of_mem_yields {s : Sequence} {seen : List Counter} {bs : List (List Counter)}
    {c : Counter} (hc : c ∈ (s.yields seen bs).flatten) : s.Allows c := by
  obtain ⟨hmark, hexcl, _⟩ := of_mem_yields hc
  refine ⟨?_, hexcl⟩
  rw [UInt64.le_iff_toNat_le]
  exact Nat.le_trans (s.start_le_highWater seen) hmark

/-- Blocks without duplicates yield no counter twice, however they overlap. -/
theorem nodup_yields {s : Sequence} {seen : List Counter} {bs : List (List Counter)}
    (hbs : ∀ block ∈ bs, block.Nodup ∧ ∀ c ∈ block, c < Counter.last) :
    (s.yields seen bs).flatten.Nodup := by
  induction bs generalizing seen with
  | nil => simp [yields]
  | cons block rest ih =>
      obtain ⟨hnodup, hlast⟩ := hbs block List.mem_cons_self
      rw [yields, List.flatten_cons, List.nodup_append]
      refine ⟨hnodup.filter _, ih fun b hb => hbs b (List.mem_cons_of_mem _ hb), ?_⟩
      intro c hc d hd hcd
      have hblock := (List.mem_filter.mp hc).1
      have hbelow := s.lt_highWater (List.mem_append_right seen hblock) (hlast c hblock)
      have habove := (of_mem_yields hd).1
      rw [hcd] at hbelow
      omega

end Sequence

namespace Reserve

/-! ## Requests -/

theorem request?_eq_some {s : Sequence} {r : Reserve} {request : FetchRequest}
    (h : r.request? s = some request) :
    s.excluded.IsLeastAllowed r.mark request.least ∧
      request = ⟨s.name, s.start, request.least, s.poolSize⟩ := by
  obtain ⟨least, hleast, rfl⟩ := Option.map_eq_some_iff.mp h
  exact ⟨ExclusionSet.leastAllowed?_eq_some_iff.mp hleast, rfl⟩

theorem Course.sequence_request {s : Sequence} {r r' : Reserve} {es log cs}
    (h : Course s r es log cs r') : ∀ e ∈ es, e.request.sequence = s.name := by
  induction h with
  | done r => simp
  | issue hq _ ih => exact ih
  | refill hq hr hb _ ih =>
      intro e he
      rcases List.mem_cons.mp he with rfl | he
      · rw [(request?_eq_some hr).2]
      · exact ih e he
  | fault hq hm hl _ ih =>
      intro e he
      rcases List.mem_append.mp he with he | he
      · rw [(request?_eq_some (hm e he).1).2]
      · exact ih e he

theorem le_markAfter (mark : Counter) (block : List Counter) : mark ≤ markAfter mark block := by
  have := UInt64.le_iff_toNat_le.mp (Counter.le_last mark)
  rw [UInt64.le_iff_toNat_le, toNat_markAfter]
  omega

theorem lt_markAfter (mark : Counter) {block : List Counter} {c : Counter} (hc : c ∈ block)
    (hlast : c < Counter.last) : c < markAfter mark block := by
  have hpeak := lt_peak hc
  rw [UInt64.lt_iff_toNat_lt] at hlast
  rw [UInt64.lt_iff_toNat_lt, toNat_markAfter]
  omega

/-- One request follows another: it asks for no less, and for more than the other one brought. -/
def Follows (e e' : Exchange) : Prop :=
  e.request.least ≤ e'.request.least ∧ ∀ c ∈ e.counters, c < e'.request.least

/-- Requests start on allowed counters from the mark on, and each follows all before it. -/
theorem Course.requests {s : Sequence} {r r' : Reserve} {es log cs} (h : Course s r es log cs r')
    (hlast : ∀ e ∈ es, ∀ c ∈ e.counters, c < Counter.last) :
    (∀ e ∈ es, r.mark ≤ e.request.least ∧ ¬s.excluded.excludes e.request.least) ∧
      es.Pairwise Follows := by
  induction h with
  | done r => simp
  | issue hq _ ih => exact ih hlast
  | @refill r r' request block es log cs hq hr hb _ ih =>
      obtain ⟨habove, hpairs⟩ := ih fun e he => hlast e (List.mem_cons_of_mem _ he)
      obtain ⟨hleast, -⟩ := request?_eq_some hr
      have hmark : r.mark ≤ (r.accept s.excluded block).mark := le_markAfter r.mark block
      constructor
      · intro e he
        rcases List.mem_cons.mp he with rfl | he
        · exact ⟨hleast.le, hleast.allowed⟩
        · exact ⟨UInt64.le_trans hmark (habove e he).1, (habove e he).2⟩
      · refine List.pairwise_cons.mpr ⟨?_, hpairs⟩
        intro e he
        obtain ⟨hle, hallowed⟩ := habove e he
        refine ⟨hleast.le_of_allowed (UInt64.le_trans hmark hle) hallowed, ?_⟩
        intro c hc
        have hclast := hlast _ List.mem_cons_self c hc
        exact UInt64.lt_of_lt_of_le (lt_markAfter r.mark hc hclast) hle
  | @fault r r' missed lines es log cs hq hm hl _ ih =>
      obtain ⟨habove, hpairs⟩ := ih fun e he => hlast e (List.mem_append_right _ he)
      have hmissed : ∀ e ∈ missed, s.excluded.IsLeastAllowed r.mark e.request.least := by
        intro e he
        exact (request?_eq_some (hm e he).1).1
      have hfollow : ∀ e ∈ missed, ∀ e' : Exchange, r.mark ≤ e'.request.least →
          ¬s.excluded.excludes e'.request.least → Follows e e' := by
        intro e he e' hle hallowed
        refine ⟨(hmissed e he).le_of_allowed hle hallowed, ?_⟩
        rw [(hm e he).2]
        simp
      constructor
      · intro e he
        rcases List.mem_append.mp he with he | he
        · exact ⟨(hmissed e he).le, (hmissed e he).allowed⟩
        · exact habove e he
      · refine List.pairwise_append.mpr ⟨?_, hpairs, ?_⟩
        · refine List.pairwise_of_forall_mem_list ?_
          intro e he e' he'
          exact hfollow e he e' (hmissed e' he').le (hmissed e' he').allowed
        · intro e he e' he'
          exact hfollow e he e' (habove e' he').1 (habove e' he').2

end Reserve

/-! ## Runs -/

theorem eq_counters_of_mem_blocks {es : List Exchange} {block : List Counter}
    (hb : block ∈ blocks es) : ∃ e ∈ es, e.counters = block := by
  simpa using (List.mem_filter.mp hb).1

/-- Calls on a new pool, any number of them, over a source that answers as it likes with blocks of
distinct counters below the last one, with empty blocks and with faults. The counters issued are
distinct and allowed. The requests start on counters that are not excluded, never ask for less than
an earlier request, and always for more than anything that came before. They are all that the source
was asked on behalf of the pool, with what it answered, turn by turn. -/
theorem Pool.run_distinct {σ : Type} (src : Source σ) (s : Sequence)
    (turns : List (List FetchRequest)) (w : σ)
    (hblocks : ∀ e ∈ ((Pool.ofSequence s).run src turns w).exchanges,
      e.counters.Nodup ∧ ∀ c ∈ e.counters, c < Counter.last) :
    let run := (Pool.ofSequence s).run src turns w
    (issued run.values).Nodup ∧
      (∀ c ∈ issued run.values, s.Allows c) ∧
      (∀ e ∈ run.exchanges, ¬s.excluded.excludes e.request.least) ∧
      (run.exchanges.Pairwise fun e e' =>
        e.request.least ≤ e'.request.least ∧ ∀ c ∈ e.counters, c < e'.request.least) ∧
      src.ServesTurns w turns run.exchanges run.state.2 := by
  intro run
  have hcourse := Pool.run_course src turns (.ofSequence s) w
  have hyields : (s.yields [] (blocks run.exchanges)).flatten.Nodup := by
    apply Sequence.nodup_yields
    intro block hb
    obtain ⟨e, he, rfl⟩ := eq_counters_of_mem_blocks hb
    exact hblocks e he
  have hfifo : issued run.values ++ run.state.1.reserve.queue =
      (s.yields [] (blocks run.exchanges)).flatten := (Pool.accounts_run src s turns w).fifo
  obtain ⟨hleast, hpairs⟩ := hcourse.requests fun e he => (hblocks e he).2
  have hserves : src.ServesTurns w turns run.exchanges run.state.2 :=
    Pool.runWithin_serves Reserve.roundLimit src turns (.ofSequence s) w
  refine ⟨?_, ?_, fun e he => (hleast e he).2, hpairs, hserves⟩
  · rw [← hfifo] at hyields
    exact (List.nodup_append.mp hyields).1
  · intro c hc
    have hmem : c ∈ (s.yields [] (blocks run.exchanges)).flatten := by
      rw [← hfifo]
      exact List.mem_append_left _ hc
    exact Sequence.allows_of_mem_yields hmem

/-- A sequence that starts at three and never issues five to eight. -/
def Sequence.orders : Sequence where
  name := ⟨none, "orders"⟩
  start := 3
  poolSize := 4
  excluded := .ofIntervals [⟨⟨5, 8⟩, by decide⟩]
  start_pos := by decide
  start_lt := by decide
  poolSize_pos := by decide

/-- A source that hands out stale and excluded counters in no order, with faults in between. -/
def Rehearsal.unruly : Rehearsal where
  script :=
    [.block [5, 3], .failed .exhausted, .block [4, 9, 1], .block [], .block [12, 3, 10]].map
      fun answer => { play := .answer answer }
  fallback := .exhausted

theorem Pool.run_distinct_unruly :
    let run := (Pool.ofSequence .orders).run Rehearsal.source (List.replicate 6 []) .unruly
    (∀ e ∈ run.exchanges, e.counters.Nodup ∧ ∀ c ∈ e.counters, c < Counter.last) ∧
      issued run.values = [3, 9, 12, 10] ∧
      (issued run.values).Nodup ∧
      (∀ c ∈ issued run.values, Sequence.orders.Allows c) ∧
      (∀ e ∈ run.exchanges, ¬Sequence.orders.excluded.excludes e.request.least) ∧
      (run.exchanges.Pairwise fun e e' =>
        e.request.least ≤ e'.request.least ∧ ∀ c ∈ e.counters, c < e'.request.least) ∧
      Rehearsal.source.ServesTurns .unruly (List.replicate 6 []) run.exchanges run.state.2 := by
  intro run
  have hcounters : run.exchanges.map Exchange.counters =
      [[5, 3], [], [4, 9, 1], [], [12, 3, 10]] := by decide +kernel
  have hblocks : ∀ block ∈ run.exchanges.map Exchange.counters,
      block.Nodup ∧ ∀ c ∈ block, c < Counter.last := by
    rw [hcounters]
    simp [Counter.last]
  have hrun : ∀ e ∈ run.exchanges, e.counters.Nodup ∧ ∀ c ∈ e.counters, c < Counter.last :=
    fun e he => hblocks _ (List.mem_map_of_mem he)
  exact ⟨hrun, by decide +kernel, Pool.run_distinct Rehearsal.source .orders _ .unruly hrun⟩

end ShardKeys
