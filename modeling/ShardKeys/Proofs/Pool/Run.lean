import ShardKeys.Proofs.Pool.Course

/-! # Runs of a pool

A run is a series of calls that goes on after a fault. Between two calls the source may serve
others; a turn lists the requests that they made before a call.
-/

namespace ShardKeys

variable {σ : Type}

/-- Calls one after the other, one for each input, whatever comes of them. -/
def Call.each {β ε α τ : Type} (call : β → τ → Call ε α τ) :
    List β → τ → Series Empty (Except ε α) τ
  | [], t => { state := t }
  | b :: rest, t =>
      let c := call b t
      let later := Call.each call rest c.state
      { later with
        values := c.outcome :: later.values
        exchanges := c.exchanges ++ later.exchanges
        events := c.events ++ later.events }

theorem Call.length_each {β ε α τ : Type} (call : β → τ → Call ε α τ) (inputs : List β) (t : τ) :
    (Call.each call inputs t).values.length = inputs.length := by
  induction inputs generalizing t with
  | nil => rfl
  | cons b rest ih => simp [Call.each, ih]

/-- The state that requests of others leave a source in. -/
def Source.after (src : Source σ) (w : σ) (requests : List FetchRequest) : σ :=
  requests.foldl (fun w request => (src.fetch w request).2) w

/-- The answers are those of the source, which in each turn serves the requests of others first. -/
def Source.ServesTurns (src : Source σ) :
    σ → List (List FetchRequest) → List Exchange → σ → Prop
  | w, [], es, w' => es = [] ∧ w' = w
  | w, turn :: turns, es, w' =>
      ∃ mine later between, es = mine ++ later ∧ src.Serves (src.after w turn) mine between ∧
        src.ServesTurns between turns later w'

theorem Source.ServesTurns.serves_of_quiet {src : Source σ} {n : Nat} {w w' : σ}
    {es : List Exchange} (h : src.ServesTurns w (List.replicate n []) es w') :
    src.Serves w es w' := by
  induction n generalizing w es with
  | zero =>
      obtain ⟨rfl, rfl⟩ := h
      rfl
  | succ n ih =>
      obtain ⟨mine, later, between, rfl, hmine, hlater⟩ := h
      exact hmine.append (ih hlater)

namespace Pool

/-- Calls for a counter, one for each turn, each of which makes at most `limit` requests. -/
def runWithin (limit : Nat) (src : Source σ) (turns : List (List FetchRequest)) (p : Pool) (w : σ) :
    Series Empty (Except PoolFault Counter) (Pool × σ) :=
  Call.each (fun turn (p, w) => p.allocateWithin limit src (src.after w turn)) turns (p, w)

/-- Calls for a counter, one for each turn. -/
def run (src : Source σ) (turns : List (List FetchRequest)) (p : Pool) (w : σ) :
    Series Empty (Except PoolFault Counter) (Pool × σ) :=
  p.runWithin Reserve.roundLimit src turns w

/-- Calls for a key, one for each turn. -/
def runKeys (src : Source σ) (turns : List (List FetchRequest)) (p : Pool) (w : σ) :
    Series Empty (Except PoolFault Key) (Pool × σ) :=
  Call.each (fun turn (p, w) => p.next src (src.after w turn)) turns (p, w)

theorem sequence_allocateWithin (limit : Nat) (src : Source σ) (p : Pool) (w : σ) :
    (p.allocateWithin limit src w).state.1.sequence = p.sequence := by
  unfold allocateWithin
  split <;> rfl

/-- A call is a course of the reserve; on a locked pool nothing happens. -/
theorem allocateWithin_course (limit : Nat) (src : Source σ) (p : Pool) (w : σ) :
    Reserve.Course p.sequence p.reserve (p.allocateWithin limit src w).exchanges
      (p.allocateWithin limit src w).events (issuedBy (p.allocateWithin limit src w).outcome)
      (p.allocateWithin limit src w).state.1.reserve := by
  unfold allocateWithin
  split
  · exact .done _
  · exact Reserve.draw_course src p.sequence limit p.reserve w

theorem allocateWithin_serves (limit : Nat) (src : Source σ) (p : Pool) (w : σ) :
    src.Serves w (p.allocateWithin limit src w).exchanges
      (p.allocateWithin limit src w).state.2 := by
  unfold allocateWithin
  split
  · rfl
  · exact Reserve.draw_serves src p.sequence limit p.reserve w

/-- A call on a pool that is not locked is a search, and leaves the pool unlocked unless it
crashes. -/
theorem allocateWithin_of_unlocked {limit : Nat} (src : Source σ) {p : Pool} (w : σ)
    (h : p.poisoned = false) {outcome : Except PoolFault Counter} {r : Reserve} {w' : σ}
    (houtcome : (p.reserve.draw src p.sequence limit w).outcome = outcome)
    (hstate : (p.reserve.draw src p.sequence limit w).state = (r, w'))
    (hcrash : outcome ≠ .error .crashed) :
    (p.allocateWithin limit src w).outcome = outcome ∧
      (p.allocateWithin limit src w).state = ({ p with reserve := r, poisoned := false }, w') := by
  subst houtcome
  simp only [allocateWithin, h, Call.mapState, hstate, Bool.false_eq_true, if_false, true_and]

theorem sequence_allocate (src : Source σ) (p : Pool) (w : σ) :
    (p.allocate src w).state.1.sequence = p.sequence :=
  sequence_allocateWithin Reserve.roundLimit src p w

theorem allocate_course (src : Source σ) (p : Pool) (w : σ) :
    Reserve.Course p.sequence p.reserve (p.allocate src w).exchanges (p.allocate src w).events
      (issuedBy (p.allocate src w).outcome) (p.allocate src w).state.1.reserve :=
  allocateWithin_course Reserve.roundLimit src p w

theorem allocate_serves (src : Source σ) (p : Pool) (w : σ) :
    src.Serves w (p.allocate src w).exchanges (p.allocate src w).state.2 :=
  allocateWithin_serves Reserve.roundLimit src p w

theorem runWithin_cons (limit : Nat) (src : Source σ) (turn : List FetchRequest)
    (turns : List (List FetchRequest)) (p : Pool) (w : σ) :
    p.runWithin limit src (turn :: turns) w =
      let c := p.allocateWithin limit src (src.after w turn)
      let later := c.state.1.runWithin limit src turns c.state.2
      { later with
        values := c.outcome :: later.values
        exchanges := c.exchanges ++ later.exchanges
        events := c.events ++ later.events } := rfl

theorem run_cons (src : Source σ) (turn : List FetchRequest) (turns : List (List FetchRequest))
    (p : Pool) (w : σ) :
    p.run src (turn :: turns) w =
      let c := p.allocate src (src.after w turn)
      let later := c.state.1.run src turns c.state.2
      { later with
        values := c.outcome :: later.values
        exchanges := c.exchanges ++ later.exchanges
        events := c.events ++ later.events } :=
  runWithin_cons Reserve.roundLimit src turn turns p w

theorem values_runKeys (src : Source σ) (turns : List (List FetchRequest)) (p : Pool) (w : σ) :
    (p.runKeys src turns w).values = (p.run src turns w).values.map (·.map Counter.toKey) := by
  induction turns generalizing p w with
  | nil => rfl
  | cons turn turns ih =>
      have hrest := ih (p.allocate src (src.after w turn)).state.1
        (p.allocate src (src.after w turn)).state.2
      rw [run_cons, List.map_cons, ← hrest]
      rfl

theorem sequence_runWithin (limit : Nat) (src : Source σ) (turns : List (List FetchRequest))
    (p : Pool)
    (w : σ) : (p.runWithin limit src turns w).state.1.sequence = p.sequence := by
  induction turns generalizing p w with
  | nil => rfl
  | cons turn turns ih =>
      rw [runWithin_cons]
      exact (ih _ _).trans (sequence_allocateWithin limit src p _)

theorem runWithin_course (limit : Nat) (src : Source σ) (turns : List (List FetchRequest))
    (p : Pool)
    (w : σ) :
    Reserve.Course p.sequence p.reserve (p.runWithin limit src turns w).exchanges
      (p.runWithin limit src turns w).events (issued (p.runWithin limit src turns w).values)
      (p.runWithin limit src turns w).state.1.reserve := by
  induction turns generalizing p w with
  | nil => exact .done _
  | cons turn turns ih =>
      rw [runWithin_cons]
      have hrest := ih (p.allocateWithin limit src (src.after w turn)).state.1
        (p.allocateWithin limit src (src.after w turn)).state.2
      rw [sequence_allocateWithin] at hrest
      exact (allocateWithin_course limit src p (src.after w turn)).trans hrest

theorem run_course (src : Source σ) (turns : List (List FetchRequest)) (p : Pool) (w : σ) :
    Reserve.Course p.sequence p.reserve (p.run src turns w).exchanges (p.run src turns w).events
      (issued (p.run src turns w).values) (p.run src turns w).state.1.reserve :=
  runWithin_course Reserve.roundLimit src turns p w

theorem runWithin_serves (limit : Nat) (src : Source σ) (turns : List (List FetchRequest))
    (p : Pool) (w : σ) :
    src.ServesTurns w turns (p.runWithin limit src turns w).exchanges
      (p.runWithin limit src turns w).state.2 := by
  induction turns generalizing p w with
  | nil => exact ⟨rfl, rfl⟩
  | cons turn turns ih =>
      exact ⟨_, _, _, rfl, allocateWithin_serves limit src p (src.after w turn), ih _ _⟩

end Pool

end ShardKeys
