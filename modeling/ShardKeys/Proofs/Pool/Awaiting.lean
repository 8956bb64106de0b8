import ShardKeys.Pool.Waiting
import ShardKeys.Proofs.Pool.Replay

/-! # Calls that wait and may be cut off

A call that waits is a course too, wherever its deadline cuts it off: a round trip given up is a
round trip that brought nothing. What such calls issue is therefore what calls that hold their
thread issue from the same blocks.
-/

namespace ShardKeys

/-- The answers that came. -/
def delivered (es : List Exchange) : List Answer :=
  es.filterMap (·.answer)

/-- The exchanges that were not given up. -/
def answered (es : List Exchange) : List Exchange :=
  es.filter (·.answer.isSome)

theorem filter_brings_delivered (es : List Exchange) :
    (delivered es).filter Answer.brings = (blocks es).map .block := by
  induction es with
  | nil => rfl
  | cons e es ih =>
      obtain ⟨request, answer⟩ := e
      rw [← List.singleton_append, blocks_append, List.map_append, ← ih]
      cases answer with
      | none => rfl
      | some answer => exact Rehearsal.filter_brings_cons answer (delivered es) request

@[simp] theorem map_snd_stamped (time : Nat) (events : List Event) :
    (stamped time events).map Prod.snd = events := by
  simp [stamped, Function.comp_def]

namespace Reserve

variable {σ : Type} (src : Source σ) (s : Sequence) (deadline : Deadline)

theorem drawBy_course (limit clock : Nat) (r : Reserve) (w : σ) :
    Course s r (drawBy src s deadline limit clock r w).exchanges
      ((drawBy src s deadline limit clock r w).events.map Prod.snd)
      (issuedBy (drawBy src s deadline limit clock r w).outcome)
      (drawBy src s deadline limit clock r w).state.1 := by
  fun_induction drawBy src s deadline limit clock r w with
  | case1 limit clock r w c rest hq => exact .issue hq (.done _)
  | case2 limit clock r w hq hr => exact .of_fault hq (by simp) (by rw [map_snd_stamped]; rfl)
  | case3 clock r w hq request hr => exact .done r
  | case4 clock r w hq request hr limit arrival d hpassed fault =>
      refine .of_fault hq ?_ (by rw [map_snd_stamped]; rfl)
      intro e he
      obtain rfl := List.mem_singleton.mp he
      exact ⟨hr, rfl⟩
  | case5 clock r w hq request hr limit arrival hpassed answer w' hfetch exchanges events
      fault hf =>
      obtain ⟨hmiss, hlog⟩ := counters_eq_nil_of_settle request hf
      refine .of_fault hq ?_ (by rw [map_snd_stamped]; exact hlog)
      intro e he
      obtain rfl := List.mem_singleton.mp he
      exact ⟨hr, hmiss⟩
  | case6 clock r w hq request hr limit arrival hpassed answer w' hfetch exchanges events
      r' hf ih =>
      obtain ⟨block, rfl, hb, rfl⟩ := settle_eq_ok_iff.mp hf
      have hlog : events.map Prod.snd = _ :=
        (map_snd_stamped _ _).trans (settleEvents_block s r request hb)
      simp only [TimedCall.following, List.map_append, hlog, exchanges]
      exact .refill hq hr hb ih

/-- The answers of a search up to a deadline are those of its source; a request that is given up
leaves the source as it is. -/
theorem drawBy_serves (limit clock : Nat) (r : Reserve) (w : σ) :
    src.Serves w (answered (drawBy src s deadline limit clock r w).exchanges)
      (drawBy src s deadline limit clock r w).state.2 := by
  fun_induction drawBy src s deadline limit clock r w with
  | case1 | case2 | case3 | case4 => rfl
  | case5 clock r w hq request hr limit arrival hpassed answer w' hfetch exchanges events
      fault hf =>
      simp [answered, Source.Serves, exchanges, hfetch]
  | case6 clock r w hq request hr limit arrival hpassed answer w' hfetch exchanges events
      r' hf ih =>
      simpa [answered, Source.Serves, TimedCall.following, exchanges, hfetch] using ih

theorem queue_drawBy_of_error (limit clock : Nat) (r : Reserve) (w : σ) {fault : PoolFault}
    (h : (drawBy src s deadline limit clock r w).outcome = .error fault) :
    (drawBy src s deadline limit clock r w).state.1.queue = [] := by
  fun_induction drawBy src s deadline limit clock r w with
  | case1 => simp at h
  | case2 limit clock r w hq => exact hq
  | case3 clock r w hq => exact hq
  | case4 clock r w hq => exact hq
  | case5 clock r w hq => exact hq
  | case6 clock r w hq request hr limit arrival hpassed answer w' hfetch exchanges events
      r' hf ih =>
      exact ih h

end Reserve

namespace Pool

variable {σ : Type} (limit : Nat) (src : Source σ)

/-- A call that waits is a course; its log tells the events in the order of their moments. -/
theorem awaitWithin_course (deadline : Deadline) (p : Pool) (w : σ) :
    ∃ log, Reserve.Course p.sequence p.reserve (p.awaitWithin limit src deadline w).exchanges log
      (issuedBy (p.awaitWithin limit src deadline w).outcome)
      (p.awaitWithin limit src deadline w).state.1.reserve :=
  ⟨_, Reserve.drawBy_course src p.sequence deadline limit 0 p.reserve w⟩

theorem queue_awaitWithin_of_error {deadline : Deadline} {p : Pool} {w : σ} {fault : PoolFault}
    (h : (p.awaitWithin limit src deadline w).outcome = .error fault) :
    (p.awaitWithin limit src deadline w).state.1.reserve.queue = [] :=
  Reserve.queue_drawBy_of_error src p.sequence deadline limit 0 p.reserve w h

/-- Calls one after the other, each with a deadline or none. Before a call the source may serve
others, or may still serve a round trip that was given up. -/
def awaitRunWithin (calls : List (List FetchRequest × Deadline)) (p : Pool) (w : σ) :
    Series Empty (Except PoolFault Counter) (Pool × σ) :=
  Call.each (fun (turn, deadline) (p, w) => p.awaitWithin limit src deadline (src.after w turn))
    calls
    (p, w)

theorem awaitRunWithin_course (calls : List (List FetchRequest × Deadline)) (p : Pool) (w : σ) :
    (p.awaitRunWithin limit src calls w).state.1.sequence = p.sequence ∧
      ∃ log, Reserve.Course p.sequence p.reserve (p.awaitRunWithin limit src calls w).exchanges log
        (issued (p.awaitRunWithin limit src calls w).values)
        (p.awaitRunWithin limit src calls w).state.1.reserve := by
  induction calls generalizing p w with
  | nil => exact ⟨rfl, [], .done _⟩
  | cons call calls ih =>
      obtain ⟨turn, deadline⟩ := call
      obtain ⟨first, hfirst⟩ := awaitWithin_course limit src deadline p (src.after w turn)
      obtain ⟨hsequence, later, hlater⟩ :=
        ih (p.awaitWithin limit src deadline (src.after w turn)).state.1
          (p.awaitWithin limit src deadline (src.after w turn)).state.2
      exact ⟨hsequence, first ++ later, hfirst.trans hlater⟩

theorem awaitRunWithin_serves (calls : List (List FetchRequest × Deadline)) (p : Pool) (w : σ) :
    src.ServesTurns w (calls.map (·.1)) (answered (p.awaitRunWithin limit src calls w).exchanges)
      (p.awaitRunWithin limit src calls w).state.2 := by
  induction calls generalizing p w with
  | nil => exact ⟨rfl, rfl⟩
  | cons call calls ih =>
      obtain ⟨turn, deadline⟩ := call
      have hserves := Reserve.drawBy_serves src p.sequence deadline limit 0 p.reserve
        (src.after w turn)
      exact ⟨_, _, _, List.filter_append .., hserves, ih _ _⟩

/-- Calls on a new pool that wait, each with a deadline or none, over any source: some succeed, some
fail, some are cut off while a round trip is under way, some end because the source crashes. The
counters of those that succeed are what as many calls that hold their thread issue from the answers
that came, those that bring nothing left out. A call that ends in a fault leaves nothing waiting;
mark and refills are as the blocks that came so far have left them. The requests that were not given
up are those that the source served for these calls, with its answers, turn by turn. -/
theorem awaitRun_simulated (s : Sequence) (calls : List (List FetchRequest × Deadline)) (w : σ) :
    let run := (Pool.ofSequence s).awaitRunWithin limit src calls w
    let counters := issued run.values
    let brought := (delivered run.exchanges).filter Answer.brings
    (brought.length ≤ limit →
      ((Pool.ofSequence s).runWithin limit Rehearsal.source (List.replicate counters.length [])
        (.playing brought)).values = counters.map .ok) ∧
      (∀ turn deadline,
        let call := run.state.1.awaitWithin limit src deadline (src.after run.state.2 turn)
        ∀ fault, call.outcome = .error fault →
          call.state.1.reserve =
            ((Reserve.fresh s).acceptAll s.excluded
              (blocks (run.exchanges ++ call.exchanges))).drained) ∧
      src.ServesTurns w (calls.map (·.1)) (answered run.exchanges) run.state.2 := by
  intro run counters brought
  obtain ⟨hsequence, log, hcourse⟩ := awaitRunWithin_course limit src calls (.ofSequence s) w
  refine ⟨?_, ?_, awaitRunWithin_serves limit src calls (.ofSequence s) w⟩
  · intro hlimit
    have hbrought : brought = (blocks run.exchanges).map .block :=
      filter_brings_delivered run.exchanges
    rw [hbrought, List.length_map] at hlimit
    have hplay := runWithin_playing hcourse hlimit []
    rw [List.append_nil] at hplay
    rw [hbrought]
    exact hplay
  · intro turn deadline call fault hfault
    obtain ⟨more, hcall⟩ := awaitWithin_course limit src deadline run.state.1
      (src.after run.state.2 turn)
    rw [hsequence] at hcall
    exact (hcourse.trans hcall).eq_drained (queue_awaitWithin_of_error limit src hfault)

/-- A call that is cut off after a block of no use, one that then succeeds, a crash, a failure, and
two calls whose deadlines are met. -/
theorem awaitRun_simulated_orders :
    let script : List Step := [⟨0, .answer (.block [5, 6])⟩, ⟨30, .answer (.block [3, 9])⟩,
      ⟨0, .answer .crashed⟩, ⟨0, .answer (.failed (.roundTrip "reset"))⟩,
      ⟨10, .answer (.block [4, 12, 11])⟩]
    let calls := [some 20, none, none, none, some 10, some 0].map fun deadline => ([], deadline)
    let run := (Pool.ofSequence .orders).awaitRunWithin 3 Rehearsal.source calls
      { script, fallback := .exhausted }
    let brought : List Answer := [.block [5, 6], .block [3, 9], .block [4, 12, 11]]
    let call := run.state.1.awaitWithin 3 Rehearsal.source (some 5) run.state.2
    run.values =
      [.error (.gaveUp 20), .ok 9, .error .crashed, .error (.refill (.roundTrip "reset")),
        .ok 12, .ok 11] ∧
      (delivered run.exchanges).filter Answer.brings = brought ∧ brought.length ≤ 3 ∧
      ((Pool.ofSequence .orders).runWithin 3 Rehearsal.source (List.replicate 3 [])
        (.playing brought)).values = [.ok 9, .ok 12, .ok 11] ∧
      call.outcome = .error (.refill .exhausted) ∧
      call.state.1.reserve = { mark := 13, refills := 3 } := by
  intro script calls run brought call
  have hvalues : run.values = [.error (.gaveUp 20), .ok 9, .error .crashed,
      .error (.refill (.roundTrip "reset")), .ok 12, .ok 11] := by decide +kernel
  have hbrought : (delivered run.exchanges).filter Answer.brings = brought := by decide +kernel
  have houtcome : (run.state.1.awaitWithin 3 Rehearsal.source (some 5) run.state.2).outcome =
      .error (.refill .exhausted) := by decide +kernel
  have hlimit : brought.length ≤ 3 := by decide
  obtain ⟨hsame, hfault, -⟩ := awaitRun_simulated 3 Rehearsal.source .orders calls
    { script, fallback := .exhausted }
  have hplay := hsame (by rw [hbrought]; exact hlimit)
  rw [hbrought, hvalues] at hplay
  refine ⟨hvalues, hbrought, hlimit, hplay, houtcome, (hfault [] (some 5) _ houtcome).trans ?_⟩
  decide +kernel

end Pool

end ShardKeys
