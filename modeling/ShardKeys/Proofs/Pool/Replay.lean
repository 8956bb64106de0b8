import ShardKeys.Proofs.Pool.Uniqueness

/-! # Playing a course again

A round trip that brings no counters changes neither the reserve nor what is asked for next. What a
pool issues is therefore settled by its blocks: calls over a source that hands out these blocks and
nothing else issue the same counters, and not one of them fails.
-/

namespace ShardKeys

/-- Whether an answer brings counters. -/
def Answer.brings : Answer → Bool
  | .block counters => !counters.isEmpty
  | _ => false

namespace Rehearsal

/-- A source with a fixed list of answers. -/
def playing (answers : List Answer) : Rehearsal where
  script := answers.map fun answer => { play := .answer answer }
  fallback := .exhausted

theorem filter_brings_cons (answer : Answer) (answers : List Answer) (request : FetchRequest) :
    (answer :: answers).filter Answer.brings =
      (blocks [⟨request, some answer⟩]).map .block ++ answers.filter Answer.brings := by
  rw [List.filter_cons]
  cases answer with
  | block counters =>
      by_cases h : counters = [] <;> simp [Answer.brings, blocks, Exchange.counters, h]
  | failed fault => rfl
  | crashed => rfl

theorem serves_playing {answers : List Answer} {es : List Exchange} {w : Rehearsal}
    (h : source.Serves (playing answers) es w) :
    ∃ rest, w = playing rest ∧
      answers.filter Answer.brings = (blocks es).map .block ++ rest.filter Answer.brings := by
  induction es generalizing answers with
  | nil => exact ⟨answers, h, rfl⟩
  | cons e es ih =>
      obtain ⟨request, answer⟩ := e
      obtain ⟨hanswer, hserves⟩ := h
      rw [← List.singleton_append, blocks_append]
      cases answers with
      | nil =>
          obtain rfl : answer = some (.failed .exhausted) := hanswer
          have hnil := @ih []
          exact hnil hserves
      | cons a answers =>
          obtain rfl : answer = some a := hanswer
          obtain ⟨rest, hw, hfilter⟩ := ih hserves
          refine ⟨rest, hw, ?_⟩
          rw [filter_brings_cons a answers request, hfilter, List.map_append, List.append_assoc]

end Rehearsal

namespace Reserve

/-! ## What refills leave -/

/-- The reserve without the counters that wait. -/
def drained (r : Reserve) : Reserve :=
  { r with queue := [] }

/-- The reserve after some blocks were taken in, one after the other. -/
def acceptAll (r : Reserve) (excluded : ExclusionSet) (bs : List (List Counter)) : Reserve :=
  bs.foldl (fun r block => r.accept excluded block) r

/-- Mark and refills do not depend on the counters that wait. -/
theorem drained_acceptAll (r : Reserve) (excluded : ExclusionSet) (bs : List (List Counter)) :
    (r.acceptAll excluded bs).drained = (r.drained.acceptAll excluded bs).drained := by
  induction bs generalizing r with
  | nil => rfl
  | cons block bs ih =>
      calc ((r.accept excluded block).acceptAll excluded bs).drained
        _ = ((r.accept excluded block).drained.acceptAll excluded bs).drained := ih _
        _ = ((r.drained.accept excluded block).drained.acceptAll excluded bs).drained := rfl
        _ = ((r.drained.accept excluded block).acceptAll excluded bs).drained := (ih _).symm

/-- A course moves mark and refills as its blocks do. -/
theorem Course.drained_eq {s : Sequence} {r r' : Reserve} {es log cs}
    (h : Course s r es log cs r') :
    r'.drained = (r.acceptAll s.excluded (blocks es)).drained := by
  induction h with
  | done r => rfl
  | @issue r r' c rest es log cs hq _ ih =>
      rw [ih, drained_acceptAll, drained_acceptAll r]
      rfl
  | refill hq hr hb _ ih =>
      rw [blocks_cons_block _ hb]
      exact ih
  | fault hq hm hl _ ih =>
      rw [blocks_append, blocks_eq_nil fun e he => (hm e he).2]
      exact ih

theorem Course.eq_drained {s : Sequence} {r r' : Reserve} {es log cs}
    (h : Course s r es log cs r') (hq : r'.queue = []) :
    r' = (r.acceptAll s.excluded (blocks es)).drained := by
  rw [← h.drained_eq, drained, ← hq]

theorem queue_draw_of_error {σ : Type} (src : Source σ) (s : Sequence) (limit : Nat) (r : Reserve)
    (w : σ) {fault : PoolFault} (h : (draw src s limit r w).outcome = .error fault) :
    (draw src s limit r w).state.1.queue = [] := by
  fun_induction draw src s limit r w with
  | case1 => simp at h
  | case2 limit r w hq => exact hq
  | case3 r w hq => exact hq
  | case4 r w hq => exact hq
  | case5 r w hq request hr limit answer w' hfetch exchanges events r' hf ih => exact ih h

/-! ## Searches -/

/-- A search over the blocks of a course issues the first counter of the course and leaves the rest
of it. -/
theorem Course.draw_playing {s : Sequence} {r r' : Reserve} {es log c cs}
    (h : Course s r es log (c :: cs) r') {limit : Nat} (hlimit : (blocks es).length ≤ limit)
    (later : List Answer) :
    ∃ r₁ es₁ log₁, Course s r₁ es₁ log₁ cs r' ∧ (blocks es₁).length ≤ (blocks es).length ∧
      (draw Rehearsal.source s limit r (.playing ((blocks es).map .block ++ later))).outcome =
        .ok c ∧
      (draw Rehearsal.source s limit r (.playing ((blocks es).map .block ++ later))).state =
        (r₁, .playing ((blocks es₁).map .block ++ later)) := by
  generalize hcs : c :: cs = issued at h
  induction h generalizing limit with
  | done r => simp at hcs
  | @issue r r' d rest es log ds hq hrest _ =>
      obtain ⟨rfl, rfl⟩ := List.cons.inj hcs
      rw [draw_of_cons _ _ _ hq]
      exact ⟨_, es, log, hrest, Nat.le_refl _, rfl, rfl⟩
  | @refill r r' request block es log ds hq hr hb _ ih =>
      rw [blocks_cons_block request hb] at hlimit ⊢
      obtain ⟨limit, rfl⟩ : ∃ n, limit = n + 1 := ⟨limit - 1, by simp at hlimit; omega⟩
      obtain ⟨r₁, es₁, log₁, hcourse, hlength, houtcome, hstate⟩ :=
        ih (by simpa using hlimit) hcs
      have hf : r.settle s (Rehearsal.source.fetch
          (.playing ((block :: blocks es).map .block ++ later)) request).1 =
          .ok (r.accept s.excluded block) :=
        settle_eq_ok_iff.mpr ⟨block, rfl, hb, rfl⟩
      rw [draw_of_settle_ok _ _ _ hq hr hf]
      exact ⟨r₁, es₁, log₁, hcourse, by simp; omega, houtcome, hstate⟩
  | @fault r r' missed lines es log ds hq hm hl _ ih =>
      have hblocks : blocks (missed ++ es) = blocks es := by
        rw [blocks_append, blocks_eq_nil fun e he => (hm e he).2, List.nil_append]
      rw [hblocks] at hlimit ⊢
      exact ih hlimit hcs

end Reserve

namespace Pool

variable {σ : Type} (limit : Nat) (src : Source σ)

/-! ## Calls that fail -/

/-- A pool that is locked after a call was locked by it, or before it: the call failed. -/
theorem outcome_of_poisoned_allocateWithin {p : Pool} {w : σ}
    (h : (p.allocateWithin limit src w).state.1.poisoned) :
    ∃ fault, (p.allocateWithin limit src w).outcome = .error fault := by
  unfold allocateWithin at h ⊢
  split
  · exact ⟨.poisoned, rfl⟩
  · next hopen =>
      rw [if_neg hopen] at h
      cases hout : (p.reserve.draw src p.sequence limit w).outcome with
      | error fault => exact ⟨fault, hout⟩
      | ok c => simp [Call.mapState, hout] at h

theorem queue_allocateWithin_of_error {p : Pool} (hp : p.poisoned → p.reserve.queue = []) {w : σ}
    {fault : PoolFault} (h : (p.allocateWithin limit src w).outcome = .error fault) :
    (p.allocateWithin limit src w).state.1.reserve.queue = [] := by
  unfold allocateWithin at h ⊢
  split
  · next hlocked => exact hp hlocked
  · next hopen =>
      rw [if_neg hopen] at h
      exact Reserve.queue_draw_of_error src p.sequence limit p.reserve w h

theorem queue_runWithin_of_poisoned {p : Pool} (hp : p.poisoned → p.reserve.queue = [])
    (turns : List (List FetchRequest)) (w : σ) :
    (p.runWithin limit src turns w).state.1.poisoned →
      (p.runWithin limit src turns w).state.1.reserve.queue = [] := by
  induction turns generalizing p w with
  | nil => exact hp
  | cons turn turns ih =>
      refine @ih (p.allocateWithin limit src (src.after w turn)).state.1 ?_ _
      intro hlocked
      obtain ⟨fault, hfault⟩ := outcome_of_poisoned_allocateWithin limit src hlocked
      exact queue_allocateWithin_of_error limit src hp hfault

/-! ## Runs -/

variable {limit}

/-- Calls over the blocks of a course issue its counters, one each, and none of them fails. -/
theorem runWithin_playing {s : Sequence} {r r' : Reserve} {es log cs}
    (h : Reserve.Course s r es log cs r') (hlimit : (blocks es).length ≤ limit)
    (later : List Answer) :
    ((⟨s, r, false⟩ : Pool).runWithin limit Rehearsal.source (List.replicate cs.length [])
      (.playing ((blocks es).map .block ++ later))).values = cs.map .ok := by
  induction cs generalizing r es log with
  | nil => rfl
  | cons c cs ih =>
      obtain ⟨r₁, es₁, log₁, hrest, hlength, houtcome, hstate⟩ := h.draw_playing hlimit later
      obtain ⟨hout, hst⟩ := allocateWithin_of_unlocked (p := ⟨s, r, false⟩) Rehearsal.source
        (.playing ((blocks es).map .block ++ later)) rfl houtcome hstate (by simp)
      rw [List.length_cons, List.replicate_succ, runWithin_cons, List.map_cons,
        ← ih hrest (Nat.le_trans hlength hlimit)]
      simp only [Source.after, List.foldl_nil, hout, hst]

/-- A pool over a source with a fixed list of answers, and the same pool over the list without the
answers that bring nothing. As many calls on the second as succeed on the first all succeed, and
issue the same counters. On the first, a call that fails, whatever calls came before it, leaves
nothing waiting; mark and refills are as the blocks that came so far have left them. -/
theorem run_transparent (s : Sequence) (answers : List Answer) (limit n : Nat)
    (hlimit : answers.length < limit) :
    let run := (Pool.ofSequence s).runWithin limit Rehearsal.source (List.replicate n [])
      (.playing answers)
    let counters := issued run.values
    let call := run.state.1.allocateWithin limit Rehearsal.source run.state.2
    ((Pool.ofSequence s).runWithin limit Rehearsal.source (List.replicate counters.length [])
        (.playing (answers.filter Answer.brings))).values = counters.map .ok ∧
      ∀ fault, call.outcome = .error fault →
        call.state.1.reserve =
          ((Reserve.fresh s).acceptAll s.excluded
            (blocks (run.exchanges ++ call.exchanges))).drained := by
  intro run counters call
  have hcourse := runWithin_course limit Rehearsal.source (List.replicate n []) (.ofSequence s)
    (.playing answers)
  constructor
  · have hserves : Rehearsal.source.Serves (.playing answers) run.exchanges run.state.2 :=
      (runWithin_serves limit Rehearsal.source _ (.ofSequence s) (.playing answers)).serves_of_quiet
    obtain ⟨rest, -, hfilter⟩ := Rehearsal.serves_playing hserves
    have hshort : (blocks run.exchanges).length ≤ limit := by
      have hle := List.length_filter_le Answer.brings answers
      rw [hfilter, List.length_append, List.length_map] at hle
      omega
    rw [hfilter]
    exact runWithin_playing hcourse hshort _
  · intro fault hfault
    have hcall := allocateWithin_course limit Rehearsal.source run.state.1 run.state.2
    rw [sequence_runWithin] at hcall
    refine (hcourse.trans hcall).eq_drained (queue_allocateWithin_of_error _ _ ?_ hfault)
    exact queue_runWithin_of_poisoned limit Rehearsal.source (by simp [ofSequence]) _ _

/-- A source that fails in the middle of a call, and later hands out a block of no use. -/
theorem run_transparent_orders :
    let answers : List Answer :=
      [.block [5, 6], .failed (.roundTrip "reset"), .block [3, 9], .block [], .block [9, 4],
        .block [12, 10]]
    let kept : List Answer := [.block [5, 6], .block [3, 9], .block [9, 4], .block [12, 10]]
    let run := (Pool.ofSequence .orders).runWithin 7 Rehearsal.source (List.replicate 9 [])
      (.playing answers)
    let call := run.state.1.allocateWithin 7 Rehearsal.source run.state.2
    answers.length < 7 ∧ issued run.values = [9, 12, 10] ∧
      ((Pool.ofSequence .orders).runWithin 7 Rehearsal.source (List.replicate 3 [])
        (.playing kept)).values = [.ok 9, .ok 12, .ok 10] ∧
      call.outcome = .error (.refill .exhausted) ∧
      call.state.1.reserve = { mark := 13, refills := 4 } := by
  intro answers kept run call
  have hlimit : answers.length < 7 := by decide
  have hissued : issued run.values = [9, 12, 10] := by decide +kernel
  have houtcome : (run.state.1.allocateWithin 7 Rehearsal.source run.state.2).outcome =
      .error (.refill .exhausted) := by decide +kernel
  obtain ⟨hsame, hfault⟩ := run_transparent .orders answers 7 9 hlimit
  change ((Pool.ofSequence .orders).runWithin 7 Rehearsal.source
    (List.replicate (issued run.values).length []) (.playing kept)).values =
      (issued run.values).map .ok at hsame
  rw [hissued] at hsame
  refine ⟨hlimit, hissued, hsame, houtcome, ?_⟩
  rw [hfault _ houtcome]
  decide +kernel

end Pool

end ShardKeys
