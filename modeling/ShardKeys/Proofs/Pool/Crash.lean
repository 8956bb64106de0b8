import ShardKeys.Pool.Memory
import ShardKeys.Proofs.Pool.Fleet

/-! # A crash stays in its pool

A generator is seen through the pools that it hands out. A crash of the source locks the pool that
was calling it, and nothing else: for all other pools the source stands where the requests before
the crash have left it.
-/

namespace ShardKeys

variable {σ : Type} {src : Source σ}

/-- The requests that were answered by something other than a crash. -/
def completed (es : List Exchange) : List FetchRequest :=
  (es.filter (·.answer ≠ some .crashed)).map (·.request)

namespace Pool

variable {p : Pool} {w : σ}

theorem allocate_of_poisoned (src : Source σ) (w : σ) (h : p.poisoned) :
    p.allocate src w = { outcome := .error .poisoned, state := (p, w) } := by
  rw [allocate, allocateWithin, if_pos h]

theorem poisoned_of_crashed (h : (p.allocate src w).outcome = .error .crashed) :
    (p.allocate src w).state.1.poisoned := by
  unfold allocate allocateWithin at h ⊢
  split
  · next hlocked => exact hlocked
  · next hopen =>
      rw [if_neg hopen] at h
      have hdraw : (p.reserve.draw src p.sequence Reserve.roundLimit w).outcome = .error .crashed :=
        h
      simp only [Call.mapState, hdraw]

end Pool

namespace Fleet

variable {n : Nat} {f f' : Fleet σ n} {i k : Fin n} {s d : Sequence} {p : Pool}

/-! ## Fleets that differ by a crash -/

/-- One fleet has the pool `p` for a sequence on one of its generators, and the other one hands out
some pool for it. All else that they hand out is the same, over one state of the source. -/
structure Spared (k : Fin n) (d : Sequence) (p : Pool) (f f' : Fleet σ n) : Prop where
  source : f.source = f'.source
  others : ∀ j t, (j, t) ≠ (k, d) → f.handedOut j t = f'.handedOut j t
  locked : f.handedOut k d = .ok p
  opens : (f'.handedOut k d).map (·.sequence) = .ok d

theorem Spared.next (h : f.Spared k d p f') (src : Source σ) (hcall : (i, s) ≠ (k, d)) :
    (f.next src i s).outcome = (f'.next src i s).outcome ∧
      (f.next src i s).state.Spared k d p (f'.next src i s).state := by
  have hsame := h.others i s hcall
  cases hout : f.handedOut i s with
  | error fault =>
      obtain ⟨houtcome, hstate⟩ := next_of_handedOut_error src hout
      obtain ⟨houtcome', hstate'⟩ := next_of_handedOut_error src (hsame ▸ hout)
      rw [houtcome, hstate, houtcome', hstate']
      exact ⟨rfl, h⟩
  | ok q =>
      obtain ⟨houtcome, hsource, hpools⟩ := next_of_handedOut src hout
      obtain ⟨houtcome', hsource', hpools'⟩ := next_of_handedOut src (hsame ▸ hout)
      rw [← h.source] at houtcome' hsource' hpools'
      have hapart : ¬(k = i ∧ d = s) := by
        rintro ⟨rfl, rfl⟩
        exact hcall rfl
      refine ⟨houtcome.trans houtcome'.symm, hsource.trans hsource'.symm, ?_, ?_, ?_⟩
      · intro j t hjt
        rw [hpools, hpools', h.others j t hjt]
      · rw [hpools, if_neg hapart, h.locked]
      · rw [hpools', if_neg hapart, h.opens]

theorem Spared.next_locked (h : f.Spared k d p f') (src : Source σ) (hp : p.poisoned) :
    (f.next src k d).outcome = .error (.pool d .poisoned) ∧
      (f.next src k d).state.Spared k d p f' := by
  obtain ⟨houtcome, hsource, hpools⟩ := next_of_handedOut src h.locked
  rw [Pool.allocate_of_poisoned src f.source hp] at houtcome hsource hpools
  refine ⟨houtcome, hsource.trans h.source, ?_, ?_, h.opens⟩
  · intro j t hjt
    rw [hpools, if_neg (by simpa using hjt), h.others j t hjt]
  · rw [hpools, if_pos ⟨rfl, rfl⟩]

/-- A crash locks the pool that was calling, and the fleet is otherwise as before the call. -/
theorem spared_of_crashed (hcrash : (f.next src k d).outcome = .error (.pool d .crashed)) :
    ∃ p : Pool, p.poisoned ∧
      (f.next src k d).state.Spared k d p { f with source := (f.next src k d).state.source } := by
  cases hout : f.handedOut k d with
  | error fault =>
      rw [(next_of_handedOut_error src hout).1] at hcrash
      simp at hcrash
  | ok q =>
      obtain ⟨houtcome, -, hpools⟩ := next_of_handedOut src hout
      have hallocate : (q.allocate src f.source).outcome = .error .crashed := by
        rw [hcrash] at houtcome
        cases hq : (q.allocate src f.source).outcome <;> simp_all [Generator.keyOutcome]
      refine ⟨(q.allocate src f.source).state.1, Pool.poisoned_of_crashed hallocate, rfl, ?_, ?_,
        ?_⟩
      · intro j t hjt
        rw [hpools, if_neg (by simpa using hjt)]
        rfl
      · rw [hpools, if_pos ⟨rfl, rfl⟩]
      · have hopens : (f.handedOut k d).map (·.sequence) = .ok d := by
          rw [hout]
          exact congrArg Except.ok (Generator.sequence_of_handedOut hout)
        exact hopens

/-- Runs go alike but for the calls on the locked pool, and those fail. -/
theorem Spared.run (h : f.Spared k d p f') (src : Source σ) (hp : p.poisoned)
    (calls : List (Fin n × Sequence)) :
    (calls.zip (f.run src calls).values).filter (·.1 ≠ (k, d)) =
        (calls.filter (· ≠ (k, d))).zip (f'.run src (calls.filter (· ≠ (k, d)))).values ∧
      (∀ entry ∈ calls.zip (f.run src calls).values, entry.1 = (k, d) →
        entry.2 = .error (.pool d .poisoned)) ∧
      (f.run src calls).state.Spared k d p (f'.run src (calls.filter (· ≠ (k, d)))).state := by
  induction calls generalizing f f' with
  | nil => exact ⟨rfl, by simp, h⟩
  | cons call calls ih =>
      obtain ⟨i, s⟩ := call
      rw [values_run_cons, List.zip_cons_cons]
      by_cases hcall : (i, s) = (k, d)
      · obtain ⟨rfl, rfl⟩ := Prod.mk.inj hcall
        obtain ⟨houtcome, hnext⟩ := h.next_locked src hp
        obtain ⟨hvalues, hlocked, hstate⟩ := ih hnext
        rw [List.filter_cons_of_neg (by simp), List.filter_cons_of_neg (by simp)]
        refine ⟨hvalues, ?_, hstate⟩
        exact List.forall_mem_cons.mpr ⟨fun _ => houtcome, hlocked⟩
      · obtain ⟨houtcome, hnext⟩ := h.next src hcall
        obtain ⟨hvalues, hlocked, hstate⟩ := ih hnext
        have hkept : decide ((i, s) ≠ (k, d)) = true := decide_eq_true hcall
        rw [List.filter_cons, List.filter_cons, if_pos hkept, if_pos hkept, values_run_cons,
          List.zip_cons_cons, houtcome, hvalues]
        refine ⟨rfl, ?_, hstate⟩
        exact List.forall_mem_cons.mpr ⟨fun heq => absurd heq hcall, hlocked⟩

/-! ## Crashes -/

/-- The source crashes during a call for a sequence on one generator, and is left where the requests
that were answered during the call have brought it. -/
structure CrashesOn (src : Source σ) (f : Fleet σ n) (k : Fin n) (d : Sequence) : Prop where
  crash : (f.next src k d).outcome = .error (.pool d .crashed)
  left : (f.next src k d).state.source = src.after f.source (completed (f.next src k d).exchanges)

/-- A run in which the source crashes during the call for `d` on the generator `k`. Later calls for
`d` on that generator fail at the locked pool. The pool is still handed out, as the crash has left
it: a call on it reports that it is locked, asks the source nothing and changes nothing. All other
calls have the outcomes, and all other pools are handed out, as in the run without the calls for `d`
from the crash on, in which just the requests that the crashed call had completed were made. In that
run, too, a pool is handed out for `d`. -/
theorem run_confines_crash {before : List (Fin n × Sequence)}
    (hcrash : CrashesOn src (f.run src before).state k d) (later : List (Fin n × Sequence)) :
    let reached := (f.run src before).state
    let call := reached.next src k d
    let run := f.run src (before ++ (k, d) :: later)
    let rest := call.state.run src later
    let kept := later.filter (· ≠ (k, d))
    let spared := Fleet.run src kept
      { reached with source := src.after reached.source (completed call.exchanges) }
    run.values = (f.run src before).values ++ .error (.pool d .crashed) :: rest.values ∧
      rest.values.length = later.length ∧
      (later.zip rest.values).filter (·.1 ≠ (k, d)) = kept.zip spared.values ∧
      (∀ entry ∈ later.zip rest.values, entry.1 = (k, d) → entry.2 = .error (.pool d .poisoned)) ∧
      (∃ p, call.state.handedOut k d = .ok p ∧ run.state.handedOut k d = .ok p ∧
        p.available? = none ∧
        ∀ w, p.allocate src w = { outcome := .error .poisoned, state := (p, w) }) ∧
      (∀ j t, (j, t) ≠ (k, d) → run.state.handedOut j t = spared.state.handedOut j t) ∧
      (run.state.handedOut k d).map (·.sequence) =
        (spared.state.handedOut k d).map (·.sequence) := by
  intro reached call run rest kept spared
  obtain ⟨p, hp, hspared⟩ := spared_of_crashed hcrash.crash
  rw [hcrash.left] at hspared
  obtain ⟨hvalues, hlocked, hstate⟩ := hspared.run src hp later
  obtain ⟨happend, hrun⟩ := run_append src before ((k, d) :: later) f
  have hrest : run.state = rest.state := hrun
  refine ⟨?values, Call.length_each _ later _, hvalues, hlocked,
    ⟨p, hspared.locked, ?still, ?available, ?calls⟩, ?others, ?opens⟩
  case values => rw [happend, values_run_cons, hcrash.crash]
  case still =>
    rw [hrest]
    exact hstate.locked
  case available => rw [Pool.available?, if_pos hp]
  case calls => exact fun w => Pool.allocate_of_poisoned src w hp
  case others =>
    rw [hrest]
    exact hstate.others
  case opens =>
    rw [hstate.opens, hrest, hstate.locked]
    exact congrArg Except.ok (Generator.sequence_of_handedOut hstate.locked)

end Fleet

/-- A source in memory that crashes where a request would pass over a thousand counters. -/
def Memory.brittle : Source Memory where
  fetch m request := if 1000 < request.least then (.crashed, m) else m.fetch request

/-- Orders, counted from ten and fetched one by one. -/
def Sequence.orderSingles : Sequence where
  name := ⟨none, "orders"⟩
  start := 10
  poolSize := 1
  excluded := .empty
  start_pos := by decide
  start_lt := by decide
  poolSize_pos := by decide

/-- The same orders, without those from eleven to a thousand. -/
def Sequence.gappedOrders : Sequence :=
  { orderSingles with excluded := .ofIntervals [⟨⟨11, 1000⟩, by decide⟩] }

namespace Fleet

theorem crashesOn_gappedOrders :
    CrashesOn Memory.brittle
      ((ofDialects #v[{}] ({} : Memory)).run Memory.brittle [(0, .orderSingles)]).state 0
        .gappedOrders where
  crash := by decide +kernel
  left := by decide +kernel

theorem run_confines_crash_orders :
    let reached := ((ofDialects #v[{}] ({} : Memory)).run Memory.brittle [(0, .orderSingles)]).state
    let call := reached.next Memory.brittle 0 .gappedOrders
    let later : List (Fin 1 × Sequence) := [(0, .orderSingles), (0, .gappedOrders)]
    let rest := call.state.run Memory.brittle later
    let spared := Fleet.run Memory.brittle [(0, .orderSingles)]
      { reached with source := Memory.brittle.after reached.source (completed call.exchanges) }
    CrashesOn Memory.brittle reached 0 .gappedOrders ∧
      rest.values = [.ok (Counter.toKey 12), .error (.pool .gappedOrders .poisoned)] ∧
      (later.zip rest.values).filter (·.1 ≠ (0, .gappedOrders)) =
        [(0, .orderSingles)].zip spared.values := by
  intro reached call later rest spared
  have hkept : later.filter (· ≠ (0, .gappedOrders)) = [(0, .orderSingles)] := by decide +kernel
  obtain ⟨-, -, hvalues, -⟩ := run_confines_crash crashesOn_gappedOrders later
  rw [hkept] at hvalues
  exact ⟨crashesOn_gappedOrders, by decide +kernel, hvalues⟩

/-- A crashed call has used up the block that it fetched before the crash: the other pool of that
name goes on with the counter twelve, and with eleven if the call is left out. -/
theorem run_crash_consumes :
    let fleet := ofDialects #v[{}] ({} : Memory)
    CrashesOn Memory.brittle (fleet.run Memory.brittle [(0, .orderSingles)]).state 0 .gappedOrders ∧
      (fleet.run Memory.brittle
        [(0, .orderSingles), (0, .gappedOrders), (0, .orderSingles)]).values =
        [.ok (Counter.toKey 10), .error (.pool .gappedOrders .crashed), .ok (Counter.toKey 12)] ∧
      (fleet.run Memory.brittle [(0, .orderSingles), (0, .orderSingles)]).values =
        [.ok (Counter.toKey 10), .ok (Counter.toKey 11)] ∧
      Counter.toKey 12 ≠ Counter.toKey 11 := by
  refine ⟨crashesOn_gappedOrders, by decide +kernel, by decide +kernel, fun heq => ?_⟩
  have hcounters := congrArg Counter.toKey heq
  rw [Counter.toKey_toKey, Counter.toKey_toKey] at hcounters
  exact absurd hcounters (by decide)

end Fleet

end ShardKeys
