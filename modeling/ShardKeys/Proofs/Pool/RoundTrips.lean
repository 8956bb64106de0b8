import Mathlib.Algebra.Order.Floor.Div
import ShardKeys.Proofs.Pool.Enumeration
import ShardKeys.Proofs.Pool.Sharing

/-! # Round trips to the source in memory

A block starts where the sequence stands, which may be further on than a pool asks for, as others
may use the sequence. If all of such a block is excluded, the pool has caught up with the sequence,
and the next block starts with the counter that it asks for. Without exclusions every block is of
use, and a pool makes a round trip for each full block of calls, and one more for the last calls if
they are fewer.
-/

namespace ShardKeys

namespace Memory

variable {m m' : Memory}

/-! ## Counting -/

theorem roundTrips_fetch (m : Memory) (request : FetchRequest) :
    (m.fetch request).2.roundTrips = m.roundTrips + 1 := by
  rcases fetch_cases m request with ⟨hfetch, -⟩ | ⟨first, next, hfetch, -, -⟩ <;>
      rw [hfetch] <;> rfl

theorem roundTrips_after (m : Memory) (turn : List FetchRequest) :
    (source.after m turn).roundTrips = m.roundTrips + turn.length := by
  induction turn generalizing m with
  | nil => rfl
  | cons request turn ih =>
      have hrest : (source.after m (request :: turn)).roundTrips =
          (m.fetch request).2.roundTrips + turn.length := ih (m.fetch request).2
      rw [hrest, roundTrips_fetch, List.length_cons]
      omega

theorem roundTrips_of_serves {es : List Exchange} (h : source.Serves m es m') :
    m'.roundTrips = m.roundTrips + es.length := by
  induction es generalizing m with
  | nil =>
      obtain rfl : m' = m := h
      rfl
  | cons e es ih =>
      rw [ih h.2, List.length_cons]
      have hfirst : (source.fetch m e.request).2.roundTrips = m.roundTrips + 1 :=
        roundTrips_fetch m e.request
      omega

end Memory

namespace ExclusionSet

theorem not_excludes_empty (c : Counter) : ¬empty.excludes c := by
  rw [excludes_iff]
  simp [empty]

end ExclusionSet

namespace Reserve

variable {s : Sequence} {r : Reserve} {m : Memory}

/-! ## One search -/

/-- A counter was issued, or the sequence is exhausted. -/
def Settled (outcome : Except PoolFault Counter) : Prop :=
  (∃ c, outcome = .ok c) ∨ outcome = .error (.refill .exhausted)

theorem length_exchanges_le_one {es : List Exchange} {asked : Option FetchRequest}
    (h : es.map Exchange.request = asked.toList) : es.length ≤ 1 := by
  rw [← List.length_map, h]
  exact Option.length_toList_le

theorem draw_of_standsAt (hm : r.StandsAt s m) (limit : Nat) :
    (r.draw Memory.source s (limit + 1) m).exchanges.length ≤ 1 ∧
      Settled (r.draw Memory.source s (limit + 1) m).outcome := by
  cases hq : r.queue with
  | cons c rest =>
      rw [draw_of_cons Memory.source _ m hq]
      exact ⟨Nat.zero_le _, .inl ⟨c, rfl⟩⟩
  | nil =>
      rcases draw_memory_cases m hq limit with
        ⟨houtcome, hmade, -⟩ | ⟨request, first, hr, hrefilled, hdraw⟩
      · exact ⟨length_exchanges_le_one hmade, .inr houtcome⟩
      · obtain rfl := hrefilled.first_eq hm hr
        obtain ⟨c, rest, hcons⟩ := List.exists_cons_of_ne_nil (hrefilled.queue_ne_nil hr)
        rw [hdraw, draw_of_cons Memory.source limit _ hcons]
        exact ⟨Nat.le_refl _, .inl ⟨c, rfl⟩⟩

/-- Any reserve makes two requests at most: after the first one it has caught up. -/
theorem draw_memory (s : Sequence) (r : Reserve) (m : Memory) (limit : Nat) :
    (r.draw Memory.source s (limit + 2) m).exchanges.length ≤ 2 ∧
      Settled (r.draw Memory.source s (limit + 2) m).outcome := by
  cases hq : r.queue with
  | cons c rest =>
      rw [draw_of_cons Memory.source _ m hq]
      exact ⟨Nat.zero_le _, .inl ⟨c, rfl⟩⟩
  | nil =>
      rcases draw_memory_cases m hq (limit + 1) with
        ⟨houtcome, hmade, -⟩ | ⟨request, first, -, hrefilled, hdraw⟩
      · exact ⟨Nat.le_succ_of_le (length_exchanges_le_one hmade), .inr houtcome⟩
      · obtain ⟨hlength, hsettled⟩ := draw_of_standsAt hrefilled.stands limit
        rw [hdraw]
        refine ⟨?_, hsettled⟩
        rw [Call.following, List.length_append, List.length_singleton]
        omega

/-! ## Counting blocks -/

/-- Without exclusions a block that comes is of use from end to end. -/
theorem draw_of_free (hfree : s.excluded = .empty) (hq : r.queue = []) (m : Memory) (limit : Nat) :
    (r.draw Memory.source s (limit + 1) m).exchanges.length = 1 ∧
      ((r.draw Memory.source s (limit + 1) m).outcome = .error (.refill .exhausted) ∧
          (r.draw Memory.source s (limit + 1) m).state.1 = r ∨
        (∃ c, (r.draw Memory.source s (limit + 1) m).outcome = .ok c) ∧
          (r.draw Memory.source s (limit + 1) m).state.1.refills = r.refills + 1 ∧
          (r.draw Memory.source s (limit + 1) m).state.1.queue.length + 1 = s.poolSize.toNat) := by
  rcases draw_memory_cases m hq limit with
    ⟨houtcome, hmade, hstate, -⟩ | ⟨request, first, hr, hrefilled, hdraw⟩
  · refine ⟨?_, .inl ⟨houtcome, hstate⟩⟩
    cases hr : r.request? s with
    | none =>
        have hall := ExclusionSet.leastAllowed?_eq_none_iff.mp (Option.map_eq_none_iff.mp hr)
        rw [hfree] at hall
        exact absurd (hall r.mark (UInt64.le_refl _)) (ExclusionSet.not_excludes_empty _)
    | some request =>
        rw [← List.length_map, hmade, hr]
        rfl
  · have huse : (r.accept s.excluded (Counter.block first s.poolSize.toNat)).queue =
        Counter.block first s.poolSize.toNat := by
      rw [queue_accept, hq, List.nil_append, usable, List.filter_eq_self]
      intro c hc
      have hfirst := ((Counter.mem_block hrefilled.fits).mp hc).1
      have hmark := UInt64.le_trans (hrefilled.mark_le hr) (UInt64.le_iff_toNat_le.mpr hfirst)
      simp [hmark, hfree, ExclusionSet.not_excludes_empty]
    have hlength := Counter.length_block first s.poolSize.toNat
    cases hblock : Counter.block first s.poolSize.toNat with
    | nil =>
        have := s.poolSize_pos
        rw [hblock, List.length_nil] at hlength
        omega
    | cons c rest =>
        rw [hblock] at huse hlength hdraw
        rw [hdraw, draw_of_cons Memory.source limit _ huse]
        exact ⟨rfl, .inr ⟨⟨c, rfl⟩, rfl, hlength⟩⟩

/-- The books of a reserve and of the source in memory after some calls: each refill brought a full
block, and of the last one something may be left. Calls that failed and others who use the source
made a round trip each. -/
structure Tally (s : Sequence) (succeeded failed others : Nat) (r : Reserve) (m : Memory) :
    Prop where
  supply : succeeded + r.queue.length = r.refills * s.poolSize.toNat
  short : r.queue.length < s.poolSize.toNat
  roundTrips : m.roundTrips = r.refills + failed + others

section Tally

variable {succeeded failed others : Nat}

/-- The number of refills is that of the blocks that the calls took from, the last one in part. -/
theorem Tally.refills_eq (h : Tally s succeeded failed others r m) :
    r.refills = succeeded ⌈/⌉ s.poolSize.toNat := by
  have hsupply := h.supply
  have hshort := h.short
  rw [Nat.ceilDiv_eq_add_pred_div]
  refine (Nat.div_eq_of_lt_le ?_ ?_).symm
  · omega
  · rw [Nat.succ_mul]
    omega

theorem Tally.after (h : Tally s succeeded failed others r m) (turn : List FetchRequest) :
    Tally s succeeded failed (others + turn.length) r (Memory.source.after m turn) where
  supply := h.supply
  short := h.short
  roundTrips := by
    rw [Memory.roundTrips_after, h.roundTrips]
    omega

/-- A search takes the next counter, of a new block if the last one is used up, or fails after a
round trip. -/
theorem Tally.draw (h : Tally s succeeded failed others r m) (hfree : s.excluded = .empty)
    (limit : Nat) :
    ((∃ c, (r.draw Memory.source s (limit + 1) m).outcome = .ok c) ∧
        Tally s (succeeded + 1) failed others (r.draw Memory.source s (limit + 1) m).state.1
          (r.draw Memory.source s (limit + 1) m).state.2) ∨
      ((r.draw Memory.source s (limit + 1) m).outcome = .error (.refill .exhausted) ∧
        Tally s succeeded (failed + 1) others (r.draw Memory.source s (limit + 1) m).state.1
          (r.draw Memory.source s (limit + 1) m).state.2) := by
  obtain ⟨hsupply, hshort, htrips⟩ := h
  have hserves := Memory.roundTrips_of_serves (draw_serves Memory.source s (limit + 1) r m)
  cases hq : r.queue with
  | cons c rest =>
      rw [hq, List.length_cons] at hsupply hshort
      have hnext : succeeded + 1 + rest.length = r.refills * s.poolSize.toNat := by omega
      rw [draw_of_cons Memory.source _ m hq]
      exact .inl ⟨⟨c, rfl⟩, hnext, Nat.lt_of_succ_lt hshort, htrips⟩
  | nil =>
      obtain ⟨hlength, ⟨houtcome, hstate⟩ | ⟨hok, hrefills, hqueue⟩⟩ :=
        draw_of_free hfree hq m limit
      · refine .inr ⟨houtcome, hstate.symm ▸ hsupply, hstate.symm ▸ hshort, ?_⟩
        rw [hserves, htrips, hlength, hstate]
        omega
      · refine .inl ⟨hok, ?supply, by omega, ?roundTrips⟩
        case supply =>
          rw [hq, List.length_nil] at hsupply
          rw [hrefills, Nat.succ_mul]
          omega
        case roundTrips =>
          rw [hserves, htrips, hlength, hrefills]
          omega

end Tally

end Reserve

namespace Pool

variable {s : Sequence} {p : Pool} {m : Memory} {succeeded failed others : Nat}

/-! ## Calls on a pool -/

/-- A call on any pool makes two requests at most, and none if a counter waits. It issues a counter
or the sequence is exhausted, unless the pool is locked. -/
theorem allocate_memory (p : Pool) (m : Memory) :
    (p.allocate Memory.source m).exchanges.length ≤ 2 ∧
      (p.reserve.queue ≠ [] → (p.allocate Memory.source m).exchanges = []) ∧
      (Reserve.Settled (p.allocate Memory.source m).outcome ∨
        p.poisoned ∧ (p.allocate Memory.source m).outcome = .error .poisoned) := by
  unfold allocate allocateWithin
  split
  · next hlocked => exact ⟨Nat.zero_le _, fun _ => rfl, .inr ⟨hlocked, rfl⟩⟩
  · obtain ⟨hlength, hsettled⟩ := Reserve.draw_memory p.sequence p.reserve m (UInt64.size - 1)
    refine ⟨hlength, fun hq => ?_, .inl hsettled⟩
    obtain ⟨c, rest, hcons⟩ := List.exists_cons_of_ne_nil hq
    rw [Reserve.draw_of_cons Memory.source _ m hcons]
    rfl

/-- The books of a pool that is open for calls. -/
structure Tally (s : Sequence) (succeeded failed others : Nat) (p : Pool) (m : Memory) : Prop where
  sequence : p.sequence = s
  unlocked : p.poisoned = false
  reserve : p.reserve.Tally s succeeded failed others m

theorem tally_ofSequence (s : Sequence) : Tally s 0 0 0 (.ofSequence s) {} where
  sequence := rfl
  unlocked := rfl
  reserve := ⟨(Nat.zero_mul _).symm, s.poolSize_pos, rfl⟩

theorem Tally.allocate (h : Tally s succeeded failed others p m) (hfree : s.excluded = .empty) :
    ((∃ c, (p.allocate Memory.source m).outcome = .ok c) ∧
        Tally s (succeeded + 1) failed others (p.allocate Memory.source m).state.1
          (p.allocate Memory.source m).state.2) ∨
      ((p.allocate Memory.source m).outcome = .error (.refill .exhausted) ∧
        Tally s succeeded (failed + 1) others (p.allocate Memory.source m).state.1
          (p.allocate Memory.source m).state.2) := by
  rcases h.reserve.draw hfree UInt64.size with ⟨⟨c, houtcome⟩, htally⟩ | ⟨houtcome, htally⟩
  · rw [← h.sequence] at houtcome
    obtain ⟨hout, hst⟩ := allocate_of_unlocked Memory.source m h.unlocked houtcome rfl (by simp)
    rw [hst, h.sequence]
    exact .inl ⟨⟨c, hout⟩, rfl, rfl, htally⟩
  · rw [← h.sequence] at houtcome
    obtain ⟨hout, hst⟩ := allocate_of_unlocked Memory.source m h.unlocked houtcome rfl (by simp)
    rw [hst, h.sequence]
    exact .inr ⟨hout, rfl, rfl, htally⟩

theorem Tally.run (h : Tally s succeeded failed others p m) (hfree : s.excluded = .empty)
    (turns : List (List FetchRequest)) :
    ∃ failures, (issued (p.run Memory.source turns m).values).length + failures = turns.length ∧
      Tally s (succeeded + (issued (p.run Memory.source turns m).values).length) (failed + failures)
        (others + turns.flatten.length) (p.run Memory.source turns m).state.1
        (p.run Memory.source turns m).state.2 := by
  induction turns generalizing p m succeeded failed others with
  | nil => exact ⟨0, rfl, h⟩
  | cons turn turns ih =>
      have hafter :
          Tally s succeeded failed (others + turn.length) p (Memory.source.after m turn) :=
        { h with reserve := h.reserve.after turn }
      rw [run_cons, issued_cons, List.flatten_cons, List.length_append, List.length_append]
      rcases hafter.allocate hfree with ⟨⟨c, hok⟩, hnext⟩ | ⟨hfault, hnext⟩
      · obtain ⟨failures, hcount, hrest⟩ := ih hnext
        rw [hok, issuedBy_ok, List.length_singleton]
        refine ⟨failures, by rw [List.length_cons]; omega, ?_⟩
        simpa only [Nat.add_assoc] using hrest
      · obtain ⟨failures, hcount, hrest⟩ := ih hnext
        rw [hfault, issuedBy_error, List.length_nil]
        refine ⟨1 + failures, by rw [List.length_cons]; omega, ?_⟩
        simpa only [Nat.add_assoc, Nat.zero_add] using hrest

/-- Any calls on a new pool of a sequence without exclusions, over a new source in memory that may
serve others between the calls, for the same sequence even. As many blocks were taken in as the
counters that were issued fill, the last one perhaps in part, and what is left of it waits. The
round trips are one for each of these blocks, one for each call that failed, and those of the
others; where every call succeeds and there are no others, they are as many as the refills. -/
theorem run_refills_ceilDiv (s : Sequence) (hfree : s.excluded = .empty)
    (turns : List (List FetchRequest)) :
    let run := (Pool.ofSequence s).run Memory.source turns {}
    let succeeded := (issued run.values).length
    let needed := succeeded ⌈/⌉ s.poolSize.toNat
    run.state.1.reserve.refills = needed ∧
      run.state.2.roundTrips = needed + (turns.length - succeeded) + turns.flatten.length ∧
      run.state.1.reserve.queue.length = needed * s.poolSize.toNat - succeeded := by
  intro run succeeded needed
  obtain ⟨failures, hcount, htally⟩ : ∃ failures, succeeded + failures = turns.length ∧
      Tally s succeeded failures turns.flatten.length run.state.1 run.state.2 := by
    simpa only [Nat.zero_add] using (tally_ofSequence s).run hfree turns
  have hrefills : run.state.1.reserve.refills = needed := htally.reserve.refills_eq
  have hsupply := htally.reserve.supply
  refine ⟨hrefills, ?_, ?_⟩
  · rw [htally.reserve.roundTrips, hrefills, ← hcount, Nat.add_sub_cancel_left]
  · rw [← hrefills, ← hsupply, Nat.add_sub_cancel_left]

/-- Five calls, in pairs, and one request for items. -/
theorem run_refills_ceilDiv_orderPairs :
    let turns : List (List FetchRequest) := [[], [⟨⟨none, "items"⟩, 1, 1, 5⟩], [], [], []]
    let run := (Pool.ofSequence .orderPairs).run Memory.source turns {}
    Sequence.orderPairs.excluded = .empty ∧ issued run.values = [1, 2, 3, 4, 5] ∧
      run.state.1.reserve.refills = 3 ∧ run.state.2.roundTrips = 4 ∧
      run.state.1.reserve.queue.length = 1 := by
  intro turns run
  have hissued : issued run.values = [1, 2, 3, 4, 5] := by decide +kernel
  obtain ⟨hrefills, htrips, hqueue⟩ := run_refills_ceilDiv .orderPairs rfl turns
  have hneeded : (issued run.values).length ⌈/⌉ Sequence.orderPairs.poolSize.toNat = 3 := by
    rw [hissued]
    rfl
  rw [hneeded] at hrefills htrips hqueue
  rw [hissued] at htrips hqueue
  exact ⟨rfl, hissued, hrefills, htrips, hqueue⟩

end Pool

namespace Fleet

variable {n : Nat}

/-! ## Calls on a fleet -/

theorem roundTrips_next (f : Fleet Memory n) (i : Fin n) (s : Sequence) :
    (f.next Memory.source i s).state.source.roundTrips =
      f.source.roundTrips + (f.next Memory.source i s).exchanges.length :=
  Memory.roundTrips_of_serves (f.next_serves Memory.source i s)

theorem length_exchanges_next_le (f : Fleet Memory n) (i : Fin n) (s : Sequence) :
    (f.next Memory.source i s).exchanges.length ≤ 2 := by
  cases h : f.handedOut i s with
  | error fault =>
      rw [exchanges_next_of_handedOut_error _ h]
      exact Nat.zero_le _
  | ok p =>
      rw [exchanges_next_of_handedOut _ h]
      exact (p.allocate_memory f.source).1

theorem roundTrips_run_le (f : Fleet Memory n) (calls : List (Fin n × Sequence)) :
    (f.run Memory.source calls).state.source.roundTrips ≤
      f.source.roundTrips + 2 * calls.length := by
  induction calls generalizing f with
  | nil => exact Nat.le_refl _
  | cons call calls ih =>
      obtain ⟨i, s⟩ := call
      have hfirst := f.roundTrips_next i s
      have htwo := f.length_exchanges_next_le i s
      have hrest : (f.run Memory.source ((i, s) :: calls)).state.source.roundTrips ≤
          (f.next Memory.source i s).state.source.roundTrips + 2 * calls.length :=
        ih (f.next Memory.source i s).state
      rw [List.length_cons]
      omega

/-- Any number of generators over one source in memory, whatever pools they have and wherever its
sequences stand. Each call for a key makes two round trips at most, and none if a counter waits in
its pool; then it has a key, or it was refused, or the sequence is exhausted, or the pool was locked
before. So calls one after the other make at most twice as many round trips as they are. -/
theorem next_roundTrips_le_two (f : Fleet Memory n) :
    (∀ i s, let call := f.next Memory.source i s
      call.state.source.roundTrips = f.source.roundTrips + call.exchanges.length ∧
      call.exchanges.length ≤ 2 ∧
      ((f.poolOf i s).reserve.queue ≠ [] → call.exchanges = []) ∧
      ((∃ key, call.outcome = .ok key) ∨ (∃ fault, call.outcome = .error (.refused fault)) ∨
        call.outcome = .error (.pool s (.refill .exhausted)) ∨
        (f.poolOf i s).poisoned ∧ call.outcome = .error (.pool s .poisoned))) ∧
    ∀ calls, (f.run Memory.source calls).state.source.roundTrips ≤
      f.source.roundTrips + 2 * calls.length := by
  refine ⟨fun i s => ⟨f.roundTrips_next i s, f.length_exchanges_next_le i s, ?_⟩,
    f.roundTrips_run_le⟩
  cases h : f.handedOut i s with
  | error fault =>
      have hrefused := (next_of_handedOut_error Memory.source h).1
      exact ⟨fun _ => exchanges_next_of_handedOut_error _ h, .inr (.inl ⟨fault, hrefused⟩)⟩
  | ok p =>
      obtain rfl := poolOf_eq_of_handedOut h
      obtain ⟨-, hwaiting, houtcome⟩ := (f.poolOf i s).allocate_memory f.source
      rw [exchanges_next_of_handedOut _ h, (next_of_handedOut Memory.source h).1]
      refine ⟨hwaiting, ?_⟩
      rcases houtcome with (⟨c, hok⟩ | hexhausted) | ⟨hlocked, hfault⟩
      · exact .inl ⟨c.toKey, by rw [hok]; rfl⟩
      · exact .inr (.inr (.inl (by rw [hexhausted]; rfl)))
      · exact .inr (.inr (.inr ⟨hlocked, by rw [hfault]; rfl⟩))

/-- The pool of pairs moved the sequence up to the counters that the other pool excludes. A call on
that one makes two round trips, and the next call makes none. -/
theorem next_roundTrips_le_two_orders :
    let pairs : List (Fin 1 × Sequence) := List.replicate 3 (0, .orderPairs)
    let f := ((ofDialects #v[{}] ({} : Memory)).run Memory.source pairs).state
    let call := f.next Memory.source 0 .orders
    call.exchanges.map Exchange.counters = [[5, 6, 7, 8], [9, 10, 11, 12]] ∧
      call.state.source.roundTrips = f.source.roundTrips + 2 ∧
      (call.state.poolOf 0 .orders).reserve.queue.length = 3 ∧
      (call.state.next Memory.source 0 .orders).exchanges = [] ∧
      f.source.roundTrips ≤ 2 * pairs.length := by
  intro pairs f call
  obtain ⟨hblocks, hqueue⟩ :
      call.exchanges.map Exchange.counters = [[5, 6, 7, 8], [9, 10, 11, 12]] ∧
      (call.state.poolOf 0 .orders).reserve.queue.length = 3 :=
        ⟨by decide +kernel, by decide +kernel⟩
  have htrips := ((next_roundTrips_le_two f).1 0 .orders).1
  have hwaiting := ((next_roundTrips_le_two call.state).1 0 .orders).2.2.1
  have htotal := (next_roundTrips_le_two (ofDialects #v[{}] ({} : Memory))).2 pairs
  refine ⟨hblocks, ?_, hqueue, hwaiting (List.ne_nil_of_length_pos (by omega)), ?_⟩
  · have hlength : call.exchanges.length = 2 := by rw [← List.length_map, hblocks]; rfl
    rw [htrips, hlength]
  · exact htotal.trans_eq (Nat.zero_add _)

end Fleet

end ShardKeys
