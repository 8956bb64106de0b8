import ShardKeys.Event

/-!
Calls and series of calls. A call has an outcome, leaves a state behind, and keeps a record of its
traffic with the source and of its events. A series repeats a call until it fails.
-/

namespace ShardKeys

/-- What comes of a call: a value of `α` or a fault of `ε`, on states of `τ`. -/
structure Call (ε α τ : Type) where
  outcome : Except ε α
  state : τ
  exchanges : List Exchange := []
  events : List Event := []

namespace Call

variable {ε ε' α β τ τ' : Type}

/-- Puts earlier traffic in front. -/
def following (c : Call ε α τ) (exchanges : List Exchange) (events : List Event) : Call ε α τ :=
  { c with exchanges := exchanges ++ c.exchanges, events := events ++ c.events }

def mapOutcome (f : Except ε α → Except ε' β) (c : Call ε α τ) : Call ε' β τ :=
  { c with outcome := f c.outcome }

def mapState (f : τ → τ') (c : Call ε α τ) : Call ε α τ' :=
  { c with state := f c.state }

end Call

/-- What comes of a series of calls: the values in order, and the fault that ended it, if one
did. -/
structure Series (ε α τ : Type) where
  values : List α := []
  fault : Option ε := none
  state : τ
  exchanges : List Exchange := []
  events : List Event := []

/-- At most `n` calls one after the other; the first fault ends the series. -/
def Call.repeated {ε α τ : Type} (call : τ → Call ε α τ) : Nat → τ → Series ε α τ
  | 0, t => { state := t }
  | n + 1, t =>
      let c := call t
      match c.outcome with
      | .error fault =>
          { fault := some fault, state := c.state, exchanges := c.exchanges, events := c.events }
      | .ok a =>
          let rest := Call.repeated call n c.state
          { rest with
            values := a :: rest.values
            exchanges := c.exchanges ++ rest.exchanges
            events := c.events ++ rest.events }

end ShardKeys
