import ShardKeys.Pool.Call
import ShardKeys.Pool.Reserve

/-!
Pools. A pool issues the counters of its reserve in order, and asks its source for a block whenever
the reserve is empty, until a counter of use arrives or a round trip fails. A failure leaves the
reserve as the last completed round trip left it. A crash of the source poisons the pool: it stays
locked.
-/

namespace ShardKeys

namespace Reserve

variable {σ : Type}

/-- Takes the next counter, refilling the reserve for as long as it is empty; at most `limit`
requests are made. -/
def draw (src : Source σ) (s : Sequence) : Nat → Reserve → σ → Call PoolFault Counter (Reserve × σ)
  | limit, r, w =>
    match r.queue with
    | c :: rest => { outcome := .ok c, state := ({ r with queue := rest }, w) }
    | [] =>
        match r.request? s with
        | none =>
            let fault := PoolFault.refill .exhausted
            { outcome := .error fault, state := (r, w), events := fault.events s }
        | some request =>
            match limit with
            | 0 => { outcome := .error .fruitless, state := (r, w) }
            | limit + 1 =>
                let (answer, w) := src.fetch w request
                let exchanges := [{ request, answer := some answer }]
                let events := r.settleEvents s request answer
                match r.settle s answer with
                | .error fault => { outcome := .error fault, state := (r, w), exchanges, events }
                | .ok r => (draw src s limit r w).following exchanges events

/-- More round trips than a source needs that answers every request with a counter not below the one
asked for: each of them moves the mark. -/
def roundLimit : Nat := UInt64.size + 1

end Reserve

structure Pool where
  sequence : Sequence
  reserve : Reserve
  poisoned : Bool := false
  deriving DecidableEq

namespace Pool

variable {σ : Type}

/-- An empty pool; the first call refills it. -/
def ofSequence (s : Sequence) : Pool where
  sequence := s
  reserve := .fresh s

/-- The number of counters that wait, unless the pool is locked. -/
def available? (p : Pool) : Option Nat :=
  if p.poisoned then none else some p.reserve.queue.length

/-- A call for a counter, which holds the lock of the pool until it ends and makes at most `limit`
requests. -/
def allocateWithin (limit : Nat) (src : Source σ) (p : Pool) (w : σ) :
    Call PoolFault Counter (Pool × σ) :=
  if p.poisoned then { outcome := .error .poisoned, state := (p, w) }
  else
    let c := p.reserve.draw src p.sequence limit w
    c.mapState fun (r, w) =>
      ({ p with reserve := r, poisoned := c.outcome matches .error .crashed }, w)

/-- A call for a counter. -/
def allocate (src : Source σ) (p : Pool) (w : σ) : Call PoolFault Counter (Pool × σ) :=
  p.allocateWithin Reserve.roundLimit src w

/-- A call for a key, which is made of the counter that the pool issues. -/
def next (src : Source σ) (p : Pool) (w : σ) : Call PoolFault Key (Pool × σ) :=
  (p.allocate src w).mapOutcome (·.map Counter.toKey)

end Pool

end ShardKeys
