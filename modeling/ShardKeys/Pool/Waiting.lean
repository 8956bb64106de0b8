import ShardKeys.Pool.Basic

/-!
Pools whose callers wait without holding a thread. The lock of a pool goes to its callers in the
order in which they came and is kept across refills. Time is counted in milliseconds from the moment
the callers came; it passes only while a source is being waited for. A caller may have a deadline:
it gives up its place, or the round trip it waits for, when the deadline comes first, and the
reserve and the source stay as they are. A crash of the source ends one call and leaves the pool
usable.
-/

namespace ShardKeys

/-- The moment at which a caller runs out of patience, if it ever does. -/
abbrev Deadline := Option Nat

/-- The deadline that passes before `time`. -/
def Deadline.passed? (deadline : Deadline) (time : Nat) : Option Nat :=
  deadline.filter (· < time)

/-- The fault of a caller that gave up after some milliseconds. -/
def PoolFault.gaveUp (millis : Nat) : PoolFault :=
  .refill (.timedOut (millis * 1000000))

/-- A call together with the moment of its end and the moments of its events. -/
structure TimedCall (τ : Type) where
  outcome : Except PoolFault Counter
  state : τ
  finish : Nat
  exchanges : List Exchange := []
  events : List (Nat × Event) := []

namespace TimedCall

variable {τ : Type}

def following (c : TimedCall τ) (exchanges : List Exchange) (events : List (Nat × Event)) :
    TimedCall τ :=
  { c with exchanges := exchanges ++ c.exchanges, events := events ++ c.events }

end TimedCall

/-- Events that happen at the same moment. -/
def stamped (time : Nat) (events : List Event) : List (Nat × Event) :=
  events.map fun e => (time, e)

namespace Reserve

variable {σ : Type}

/-- Takes the next counter as `draw` does, from the moment `clock` on, unless the deadline
passes. -/
def drawBy (src : Source σ) (s : Sequence) (deadline : Deadline) :
    Nat → Nat → Reserve → σ → TimedCall (Reserve × σ)
  | limit, clock, r, w =>
    match r.queue with
    | c :: rest => { outcome := .ok c, state := ({ r with queue := rest }, w), finish := clock }
    | [] =>
        match r.request? s with
        | none =>
            let fault := PoolFault.refill .exhausted
            { outcome := .error fault, state := (r, w), finish := clock
              events := stamped clock (fault.events s) }
        | some request =>
            match limit with
            | 0 => { outcome := .error .fruitless, state := (r, w), finish := clock }
            | limit + 1 =>
                let arrival := clock + src.delay w
                match deadline.passed? arrival with
                | some d =>
                    let fault := PoolFault.gaveUp d
                    { outcome := .error fault, state := (r, w), finish := d
                      exchanges := [{ request, answer := none }]
                      events := stamped d (fault.events s) }
                | none =>
                    let (answer, w) := src.fetch w request
                    let exchanges := [{ request, answer := some answer }]
                    let events := stamped arrival (r.settleEvents s request answer)
                    match r.settle s answer with
                    | .error fault =>
                        { outcome := .error fault, state := (r, w), finish := arrival,
                          exchanges, events }
                    | .ok r => (drawBy src s deadline limit arrival r w).following exchanges events

/-- What comes of callers that came at the same moment, in the order of their places. -/
structure Service (τ : Type) where
  outcomes : List (Except PoolFault Counter) := []
  state : τ
  exchanges : List Exchange := []
  events : List (Nat × Event) := []

/-- Gives the lock to one caller after the other; it is free from `clock` on. -/
def serve (src : Source σ) (s : Sequence) :
    List Deadline → Nat → Reserve → σ → Service (Reserve × σ)
  | [], _, r, w => { state := (r, w) }
  | deadline :: rest, clock, r, w =>
      match deadline.passed? clock with
      | some d =>
          let fault := PoolFault.gaveUp d
          let later := serve src s rest clock r w
          { later with
            outcomes := .error fault :: later.outcomes
            events := stamped d (fault.events s) ++ later.events }
      | none =>
          let c := drawBy src s deadline roundLimit clock r w
          let later := serve src s rest c.finish c.state.1 c.state.2
          { later with
            outcomes := c.outcome :: later.outcomes
            exchanges := c.exchanges ++ later.exchanges
            events := c.events ++ later.events }

/-- Events in the order of their moments; those of one moment keep the order of the callers. -/
def inOrder (events : List (Nat × Event)) : List Event :=
  (events.mergeSort fun a b => a.1 ≤ b.1).map (·.2)

end Reserve

namespace Pool

variable {σ : Type}

/-- A call for a counter that ends at the deadline and makes at most `limit` requests. -/
def awaitWithin (limit : Nat) (src : Source σ) (deadline : Deadline) (p : Pool) (w : σ) :
    Call PoolFault Counter (Pool × σ) :=
  let c := p.reserve.drawBy src p.sequence deadline limit 0 w
  { outcome := c.outcome
    state := ({ p with reserve := c.state.1 }, c.state.2)
    exchanges := c.exchanges
    events := Reserve.inOrder c.events }

/-- A call for a counter that ends at the deadline. -/
def await (src : Source σ) (deadline : Deadline) (p : Pool) (w : σ) :
    Call PoolFault Counter (Pool × σ) :=
  p.awaitWithin Reserve.roundLimit src deadline w

/-- Calls that come at the same moment, each with a deadline of its own. -/
def awaitAll (src : Source σ) (deadlines : List Deadline) (p : Pool) (w : σ) :
    Series Empty (Except PoolFault Counter) (Pool × σ) :=
  let c := p.reserve.serve src p.sequence deadlines 0 w
  { values := c.outcomes
    state := ({ p with reserve := c.state.1 }, c.state.2)
    exchanges := c.exchanges
    events := Reserve.inOrder c.events }

end Pool

end ShardKeys
