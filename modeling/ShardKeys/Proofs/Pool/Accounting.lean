import Mathlib.Data.List.Forall2
import ShardKeys.Proofs.Pool.Run

/-! # What a reserve holds and what it has issued

A model of a whole run that knows only the blocks that came: the mark is one past the largest
counter seen, and each block yields what is neither excluded nor below that mark. Nothing is lost
and nothing changes places: the counters issued, followed by those that wait, are the yields of the
blocks in order.
-/

namespace ShardKeys

/-- One past the largest of some counters; zero if there are none. -/
def peak (seen : List Counter) : Nat :=
  (seen.map fun c => c.toNat + 1).foldr max 0

@[simp] theorem peak_nil : peak [] = 0 := rfl

@[simp] theorem peak_cons (c : Counter) (seen : List Counter) :
    peak (c :: seen) = max (c.toNat + 1) (peak seen) := rfl

theorem peak_append (seen more : List Counter) :
    peak (seen ++ more) = max (peak seen) (peak more) := by
  induction seen with
  | nil => simp
  | cons c seen ih =>
      rw [List.cons_append, peak_cons, peak_cons, ih]
      omega

theorem lt_peak {seen : List Counter} {c : Counter} (hc : c ∈ seen) : c.toNat < peak seen := by
  induction seen with
  | nil => simp at hc
  | cons d seen ih =>
      rw [peak_cons]
      rcases List.mem_cons.mp hc with rfl | hc
      · omega
      · have := ih hc
        omega

namespace Sequence

/-- The mark after some counters were seen: the start of the sequence or one past the largest of
them, whichever is larger, but no more than the last counter. -/
def highWater (s : Sequence) (seen : List Counter) : Nat :=
  min (max s.start.toNat (peak seen)) Counter.last.toNat

/-- What each block yields, after some counters were seen. -/
def yields (s : Sequence) : List Counter → List (List Counter) → List (List Counter)
  | _, [] => []
  | seen, block :: rest =>
      block.filter (fun c => s.highWater seen ≤ c.toNat ∧ ¬s.excluded.excludes c) ::
        yields s (seen ++ block) rest

theorem highWater_nil (s : Sequence) : s.highWater [] = s.start.toNat := by
  have := s.start_lt
  simp only [highWater, peak_nil, Counter.toNat_last]
  omega

end Sequence

namespace Reserve

/-! ## One block -/

/-- Counting through a block moves the mark past its largest counter. -/
theorem toNat_markAfter (mark : Counter) (block : List Counter) :
    (markAfter mark block).toNat = min (max mark.toNat (peak block)) Counter.last.toNat := by
  induction block generalizing mark with
  | nil =>
      have := mark.toNat_lt
      simp only [markAfter, List.foldl_nil, peak_nil, Counter.toNat_last]
      omega
  | cons c rest ih =>
      have hc := c.toNat_lt
      have hm := mark.toNat_lt
      have hstep : markAfter mark (c :: rest) =
          markAfter (if mark ≤ c then Counter.after c else mark) rest := rfl
      rw [hstep, ih, peak_cons]
      split
      · next hle =>
          rw [UInt64.le_iff_toNat_le] at hle
          rw [Counter.toNat_after]
          omega
      · next hlt =>
          rw [UInt64.le_iff_toNat_le] at hlt
          omega

theorem toNat_mark_accept {s : Sequence} {r : Reserve} {seen : List Counter}
    (hmark : r.mark.toNat = s.highWater seen) (block : List Counter) :
    (r.accept s.excluded block).mark.toNat = s.highWater (seen ++ block) := by
  have : (r.accept s.excluded block).mark = markAfter r.mark block := rfl
  rw [this, toNat_markAfter, hmark]
  simp only [Sequence.highWater, peak_append]
  omega

theorem usable_eq_filter {s : Sequence} {mark : Counter} {n : Nat} (hmark : mark.toNat = n)
    (block : List Counter) :
    usable mark s.excluded block =
      block.filter (fun c => n ≤ c.toNat ∧ ¬s.excluded.excludes c) := by
  apply List.filter_congr
  intro c hc
  rw [← hmark]
  simp [UInt64.le_iff_toNat_le]

/-! ## A course -/

/-- The books of a course that starts at `r` with the counters `seen`. -/
structure Accounts (s : Sequence) (seen : List Counter) (r : Reserve) (es : List Exchange)
    (log : List Event) (cs : List Counter) (r' : Reserve) : Prop where
  fifo : cs ++ r'.queue = r.queue ++ (s.yields seen (blocks es)).flatten
  mark : r'.mark.toNat = s.highWater (seen ++ (blocks es).flatten)
  refills : r'.refills = r.refills + (blocks es).length
  /-- The log states what each block yielded, and that the rest of the block was of no use. -/
  log : List.Forall₂
    (fun line entry => line.1 = entry.2.length ∧ line.2 + entry.2.length = entry.1.length)
    (refillLog log) ((blocks es).zip (s.yields seen (blocks es)))

theorem Course.accounts {s : Sequence} {r r' : Reserve} {es log cs} (h : Course s r es log cs r')
    {seen : List Counter} (hmark : r.mark.toNat = s.highWater seen) :
    Accounts s seen r es log cs r' := by
  induction h generalizing seen with
  | done r => exact ⟨by simp [Sequence.yields], by simpa using hmark, rfl, .nil⟩
  | issue hq _ ih =>
      have hrest := ih hmark
      exact ⟨by simp [hq, hrest.fifo], hrest.mark, hrest.refills, hrest.log⟩
  | @refill r r' request block es log cs hq hr hb _ ih =>
      have hrest := ih (toNat_mark_accept hmark block)
      have husable := usable_eq_filter (s := s) hmark block
      have hlost := length_queue_accept_add_discarded r s.excluded block
      refine ⟨?_, ?_, ?_, ?_⟩
      · rw [hrest.fifo, blocks_cons_block request hb, queue_accept, hq, husable]
        rfl
      · rw [hrest.mark, blocks_cons_block request hb, List.flatten_cons, List.append_assoc]
      · rw [hrest.refills, blocks_cons_block request hb, refills_accept, List.length_cons]
        omega
      · rw [blocks_cons_block request hb]
        refine .cons ⟨?_, ?_⟩ hrest.log
        · simp [hq, husable]
        · rw [queue_accept, hq, List.nil_append, husable] at hlost
          simpa [Nat.add_comm] using hlost
  | fault hq hm hl _ ih =>
      have hrest := ih hmark
      have hnone := blocks_eq_nil fun e he => (hm e he).2
      constructor
      · rw [blocks_append, hnone, List.nil_append, hrest.fifo]
      · rw [blocks_append, hnone, List.nil_append, hrest.mark]
      · rw [blocks_append, hnone, List.nil_append, hrest.refills]
      · rw [blocks_append, hnone, List.nil_append, refillLog, List.filterMap_append, ← refillLog,
          hl]
        exact hrest.log

end Reserve

/-! ## A run -/

theorem Pool.accounts_run {σ : Type} (src : Source σ) (s : Sequence)
    (turns : List (List FetchRequest)) (w : σ) :
    let run := (Pool.ofSequence s).run src turns w
    Reserve.Accounts s [] (.fresh s) run.exchanges run.events (issued run.values)
      run.state.1.reserve := by
  intro run
  have hstart : (Reserve.fresh s).mark.toNat = s.highWater [] := s.highWater_nil.symm
  exact (Pool.run_course src turns (.ofSequence s) w).accounts hstart

/-- After any number of calls on a new pool, whatever the source answers and whoever else it serves:
the counters issued and those that wait are, in order, the yields of the blocks that came; the mark
is the high-water mark of all that came; every block with counters is one refill; and the log line
of a refill gives the length of its yield, by which the empty queue grew, and the rest of the block
as discarded. The traffic of the run is what the source was asked and what it answered, turn by
turn. -/
theorem Pool.run_accounts {σ : Type} (src : Source σ) (s : Sequence)
    (turns : List (List FetchRequest)) (w : σ) :
    let run := (Pool.ofSequence s).run src turns w
    let reserve := run.state.1.reserve
    let came := blocks run.exchanges
    issued run.values ++ reserve.queue = (s.yields [] came).flatten ∧
      reserve.mark.toNat = s.highWater came.flatten ∧
      reserve.refills = came.length ∧
      List.Forall₂
        (fun line entry => line.1 = entry.2.length ∧ line.2 + entry.2.length = entry.1.length)
        (refillLog run.events) (came.zip (s.yields [] came)) ∧
      src.ServesTurns w turns run.exchanges run.state.2 := by
  intro run reserve came
  have h := Pool.accounts_run src s turns w
  have hserves : src.ServesTurns w turns run.exchanges run.state.2 :=
    Pool.runWithin_serves Reserve.roundLimit src turns (.ofSequence s) w
  exact ⟨h.fifo, h.mark, h.refills.trans (Nat.zero_add _), h.log, hserves⟩

end ShardKeys
