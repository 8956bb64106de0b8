import ShardKeys.Dialect.Limits
import ShardKeys.Pool.Waiting

/-!
Generators of keys. A generator keeps one pool for every sequence it was asked for; sequences that
differ in any part have pools of their own. A pool is opened on first use, if the dialect admits the
sequence. The generators of a fleet share one source.
-/

namespace ShardKeys

/-- Why there is no key. -/
inductive KeyFault where
  | refused (fault : ConfigurationFault)
  | pool (sequence : Sequence) (fault : PoolFault)
  deriving DecidableEq

structure Generator where
  dialect : Dialect := {}
  pools : List Pool := []
  deriving DecidableEq, Inhabited

namespace Generator

variable {σ : Type}

def pool? (g : Generator) (s : Sequence) : Option Pool :=
  g.pools.find? (·.sequence = s)

/-- Puts a pool in the place of the one with the same sequence. -/
def put (g : Generator) (p : Pool) : Generator :=
  { g with pools := g.pools.map fun q => if q.sequence = p.sequence then p else q }

/-- The pool of a sequence, opened if need be. A pool that is open is not checked again. -/
def openPool (g : Generator) (s : Sequence) : Except ConfigurationFault (Pool × Generator) :=
  match g.pool? s with
  | some p => .ok (p, g)
  | none =>
      match g.dialect.check s with
      | .error fault => .error fault
      | .ok () =>
          let p := Pool.ofSequence s
          .ok (p, { g with pools := g.pools ++ [p] })

/-- What the opening of a pool leaves in the log. -/
def openEvents (g : Generator) (s : Sequence) : List Event :=
  if (g.pool? s).isNone && g.dialect.Admits s then [.poolOpened s] else []

/-- The key made of the counter that a call on the pool of a sequence brings. -/
def keyBy (call : Pool → σ → Call PoolFault Counter (Pool × σ)) (s : Sequence) (g : Generator)
    (w : σ) :
    Call KeyFault Key (Generator × σ) :=
  match g.openPool s with
  | .error fault => { outcome := .error (.refused fault), state := (g, w) }
  | .ok (p, g) =>
      let c := call p w
      { outcome :=
          match c.outcome with
          | .ok counter => .ok counter.toKey
          | .error fault => .error (.pool s fault)
        state := (g.put c.state.1, c.state.2)
        exchanges := c.exchanges
        events := c.events }

/-- The next key of a sequence. -/
def next (src : Source σ) (s : Sequence) (g : Generator) (w : σ) :
    Call KeyFault Key (Generator × σ) :=
  (g.keyBy (Pool.allocate src) s w).following [] (g.openEvents s)

/-- The next key of a sequence, for a caller that waits until a deadline. -/
def awaitNext (src : Source σ) (deadline : Deadline) (s : Sequence) (g : Generator) (w : σ) :
    Call KeyFault Key (Generator × σ) :=
  g.keyBy (Pool.await src deadline) s w

end Generator

/-- Generators over one source. -/
structure Fleet (σ : Type) (n : Nat) where
  generators : Vector Generator n
  source : σ

namespace Fleet

variable {σ ε α : Type} {n : Nat}

/-- Generators without pools, one for each dialect. -/
def ofDialects (dialects : Vector Dialect n) (source : σ) : Fleet σ n where
  generators := dialects.map fun dialect => { dialect }
  source := source

/-- A call on one generator of the fleet. -/
def on (i : Fin n) (call : Generator → σ → Call ε α (Generator × σ)) (f : Fleet σ n) :
    Call ε α (Fleet σ n) :=
  (call f.generators[i] f.source).mapState fun (g, w) =>
    { generators := f.generators.set i g, source := w }

/-- The next key of a sequence from one generator of the fleet. -/
def next (src : Source σ) (i : Fin n) (s : Sequence) (f : Fleet σ n) :
    Call KeyFault Key (Fleet σ n) :=
  f.on i (Generator.next src s)

/-- The next key of a sequence from one generator of the fleet, for a caller that waits. -/
def awaitNext (src : Source σ) (deadline : Deadline) (i : Fin n) (s : Sequence) (f : Fleet σ n) :
    Call KeyFault Key (Fleet σ n) :=
  f.on i (Generator.awaitNext src deadline s)

end Fleet

end ShardKeys
