import ShardKeys.Pool.Basic

/-! # Courses of a reserve

Relational semantics of what happens to a reserve, given by local rules and not by the calls that
make it happen. A course joins two states of a reserve and carries the traffic, the log lines and
the counters issued on the way. Every call on a pool is a course, whatever its source answers.
-/

namespace ShardKeys

/-- The counters that an exchange brought. -/
def Exchange.counters (e : Exchange) : List Counter :=
  match e.answer with
  | some (.block counters) => counters
  | _ => []

/-- The blocks that were taken in, in the order of their arrival. -/
def blocks (es : List Exchange) : List (List Counter) :=
  (es.map Exchange.counters).filter (!·.isEmpty)

/-- All counters that came, in the order of their arrival. -/
def received (es : List Exchange) : List Counter :=
  es.flatMap Exchange.counters

@[simp] theorem blocks_nil : blocks [] = [] := rfl

@[simp] theorem received_nil : received [] = [] := rfl

theorem blocks_append (es fs : List Exchange) : blocks (es ++ fs) = blocks es ++ blocks fs := by
  simp [blocks]

theorem blocks_eq_nil {es : List Exchange} (h : ∀ e ∈ es, e.counters = []) : blocks es = [] := by
  simpa [blocks] using h

theorem blocks_cons_block (request : FetchRequest) {block : List Counter} (hb : block ≠ [])
    (es : List Exchange) :
    blocks (⟨request, some (.block block)⟩ :: es) = block :: blocks es := by
  simp [blocks, Exchange.counters, hb]

@[simp] theorem flatten_blocks (es : List Exchange) : (blocks es).flatten = received es := by
  induction es with
  | nil => rfl
  | cons e es ih =>
      rw [← List.singleton_append, blocks_append, List.flatten_append, ih]
      by_cases he : e.counters = [] <;> simp [blocks, received, he]

/-- The value of a call that brought one. -/
def issuedBy {ε α : Type} (outcome : Except ε α) : List α :=
  outcome.toOption.toList

@[simp] theorem issuedBy_ok {ε α : Type} (a : α) : issuedBy (.ok a : Except ε α) = [a] := rfl

@[simp] theorem issuedBy_error {ε α : Type} (e : ε) : issuedBy (.error e : Except ε α) = [] := rfl

/-- The values of the calls that brought one, in the order of the calls. -/
def issued {ε α : Type} (outcomes : List (Except ε α)) : List α :=
  outcomes.flatMap issuedBy

theorem issued_cons {ε α : Type} (outcome : Except ε α) (outcomes : List (Except ε α)) :
    issued (outcome :: outcomes) = issuedBy outcome ++ issued outcomes :=
  List.flatMap_cons

/-- What a log line says about a block taken in: the counters that wait, and those of no use. -/
def Event.refill? : Event → Option (Nat × Nat)
  | .refilled _ _ available discarded => some (available, discarded)
  | _ => none

/-- The lines of a log about blocks taken in. -/
def refillLog (log : List Event) : List (Nat × Nat) :=
  log.filterMap Event.refill?

/-- The answers are those of the source, asked one request after the other from state `w` on. -/
def Source.Serves {σ : Type} (src : Source σ) (w : σ) : List Exchange → σ → Prop
  | [], w' => w' = w
  | e :: es, w' =>
      e.answer = some (src.fetch w e.request).1 ∧ src.Serves (src.fetch w e.request).2 es w'

theorem Source.Serves.append {σ : Type} {src : Source σ} {w w' w'' : σ} {es es' : List Exchange}
    (h : src.Serves w es w') (h' : src.Serves w' es' w'') : src.Serves w (es ++ es') w'' := by
  induction es generalizing w with
  | nil =>
      obtain rfl : w' = w := h
      exact h'
  | cons e es ih => exact ⟨h.1, ih h.2⟩

namespace Reserve

variable {σ : Type}

/-- The head of the queue is issued; an empty queue is refilled with a block; a fault leaves the
reserve as it is, with requests that brought nothing. -/
inductive Course (s : Sequence) :
    Reserve → List Exchange → List Event → List Counter → Reserve → Prop where
  | done (r : Reserve) : Course s r [] [] [] r
  | issue {r r' : Reserve} {c : Counter} {rest : List Counter} {es log cs}
      (hq : r.queue = c :: rest) :
      Course s { r with queue := rest } es log cs r' → Course s r es log (c :: cs) r'
  | refill {r r' : Reserve} {request : FetchRequest} {block : List Counter} {es log cs}
      (hq : r.queue = []) (hr : r.request? s = some request) (hb : block ≠ []) :
      Course s (r.accept s.excluded block) es log cs r' →
      Course s r (⟨request, some (.block block)⟩ :: es)
        (.refilled s.name request.least (r.accept s.excluded block).queue.length
          (r.discarded s.excluded block) :: log) cs r'
  | fault {r r' : Reserve} {missed : List Exchange} {lines : List Event} {es log cs}
      (hq : r.queue = [])
      (hm : ∀ e ∈ missed, r.request? s = some e.request ∧ e.counters = [])
      (hl : refillLog lines = []) :
      Course s r es log cs r' → Course s r (missed ++ es) (lines ++ log) cs r'

theorem Course.trans {s : Sequence} {r r' r'' : Reserve} {es es' log log' cs cs'}
    (h : Course s r es log cs r') (h' : Course s r' es' log' cs' r'') :
    Course s r (es ++ es') (log ++ log') (cs ++ cs') r'' := by
  induction h with
  | done r => exact h'
  | issue hq _ ih => exact .issue hq (ih h')
  | refill hq hr hb _ ih => exact .refill hq hr hb (ih h')
  | fault hq hm hl _ ih =>
      rw [List.append_assoc, List.append_assoc]
      exact .fault hq hm hl (ih h')

theorem Course.of_fault {s : Sequence} {r : Reserve} {missed : List Exchange} {lines : List Event}
    (hq : r.queue = []) (hm : ∀ e ∈ missed, r.request? s = some e.request ∧ e.counters = [])
    (hl : refillLog lines = []) : Course s r missed lines [] r := by
  simpa using Course.fault hq hm hl (.done r)

/-! ## Calls are courses -/

theorem settle_eq_ok_iff {s : Sequence} {r r' : Reserve} {answer : Answer} :
    r.settle s answer = .ok r' ↔
      ∃ block, answer = .block block ∧ block ≠ [] ∧ r' = r.accept s.excluded block := by
  cases answer with
  | block counters =>
      cases counters with
      | nil => simp [settle]
      | cons c rest => simp [settle, eq_comm]
  | failed fault => simp [settle]
  | crashed => simp [settle]

theorem settleEvents_block (s : Sequence) (r : Reserve) (request : FetchRequest)
    {block : List Counter} (hb : block ≠ []) :
    r.settleEvents s request (.block block) =
      [.refilled s.name request.least (r.accept s.excluded block).queue.length
        (r.discarded s.excluded block)] := by
  cases block with
  | nil => exact absurd rfl hb
  | cons c rest => rfl

/-- An answer that is not taken in brings no counters and logs no refill. -/
theorem counters_eq_nil_of_settle {s : Sequence} {r : Reserve} (request : FetchRequest)
    {answer : Answer} {fault : PoolFault} (h : r.settle s answer = .error fault) :
    (⟨request, some answer⟩ : Exchange).counters = [] ∧
      refillLog (r.settleEvents s request answer) = [] := by
  cases answer with
  | block counters =>
      cases counters with
      | nil => exact ⟨rfl, rfl⟩
      | cons c rest => simp [settle] at h
  | failed fault => exact ⟨rfl, rfl⟩
  | crashed => exact ⟨rfl, rfl⟩

section Draw

variable (src : Source σ) {s : Sequence} {r : Reserve} (limit : Nat) (w : σ)

theorem draw_of_cons {c : Counter} {rest : List Counter} (hq : r.queue = c :: rest) :
    draw src s limit r w = { outcome := .ok c, state := ({ r with queue := rest }, w) } := by
  unfold draw
  rw [hq]

theorem draw_of_request?_none (hq : r.queue = []) (hr : r.request? s = none) :
    draw src s limit r w =
      { outcome := .error (.refill .exhausted), state := (r, w)
        events := PoolFault.events s (.refill .exhausted) } := by
  unfold draw
  rw [hq, hr]

theorem draw_of_settle_error {request : FetchRequest} {fault : PoolFault} (hq : r.queue = [])
    (hr : r.request? s = some request) (hf : r.settle s (src.fetch w request).1 = .error fault) :
    draw src s (limit + 1) r w =
      { outcome := .error fault, state := (r, (src.fetch w request).2)
        exchanges := [⟨request, some (src.fetch w request).1⟩]
        events := r.settleEvents s request (src.fetch w request).1 } := by
  rw [draw, hq, hr]
  simp only [hf]

theorem draw_of_settle_ok {r' : Reserve} {request : FetchRequest} (hq : r.queue = [])
    (hr : r.request? s = some request) (hf : r.settle s (src.fetch w request).1 = .ok r') :
    draw src s (limit + 1) r w =
      (draw src s limit r' (src.fetch w request).2).following
        [⟨request, some (src.fetch w request).1⟩]
        (r.settleEvents s request (src.fetch w request).1) := by
  rw [draw, hq, hr]
  simp only [hf]

end Draw

theorem draw_course (src : Source σ) (s : Sequence) (limit : Nat) (r : Reserve) (w : σ) :
    Course s r (draw src s limit r w).exchanges (draw src s limit r w).events
      (issuedBy (draw src s limit r w).outcome) (draw src s limit r w).state.1 := by
  fun_induction draw src s limit r w with
  | case1 limit r w c rest hq => exact .issue hq (.done _)
  | case2 limit r w hq hr => exact .of_fault hq (by simp) rfl
  | case3 r w hq request hr => exact .done r
  | case4 r w hq request hr limit answer w' hfetch exchanges events fault hf =>
      obtain ⟨hmiss, hlog⟩ := counters_eq_nil_of_settle request hf
      refine .of_fault hq ?_ hlog
      intro e he
      obtain rfl := List.mem_singleton.mp he
      exact ⟨hr, hmiss⟩
  | case5 r w hq request hr limit answer w' hfetch exchanges events r' hf ih =>
      obtain ⟨block, rfl, hb, rfl⟩ := settle_eq_ok_iff.mp hf
      have hlog : events = _ := settleEvents_block s r request hb
      simp only [Call.following, hlog, exchanges]
      exact .refill hq hr hb ih

theorem draw_serves (src : Source σ) (s : Sequence) (limit : Nat) (r : Reserve) (w : σ) :
    src.Serves w (draw src s limit r w).exchanges (draw src s limit r w).state.2 := by
  fun_induction draw src s limit r w with
  | case1 | case2 | case3 => rfl
  | case4 r w hq request hr limit answer w' hfetch exchanges events fault hf =>
      simp [Source.Serves, exchanges, hfetch]
  | case5 r w hq request hr limit answer w' hfetch exchanges events r' hf ih =>
      simpa [Source.Serves, Call.following, exchanges, hfetch] using ih

end Reserve

end ShardKeys
