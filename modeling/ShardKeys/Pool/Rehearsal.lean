import ShardKeys.Pool.Memory

/-!
A backing source that plays a script. The steps of the script answer the first requests, one each;
when none is left, a fallback answers. A rehearsal shows what a pool does when its source fails,
stalls or hands out stale counters.
-/

namespace ShardKeys

/-- Where an answer comes from. -/
inductive Rehearsed where
  | memory
  | answer (answer : Answer)
  deriving DecidableEq, Repr

/-- One answer of a script and the milliseconds before it. -/
structure Step where
  delay : Nat := 0
  play : Rehearsed
  deriving DecidableEq, Repr

/-- What answers after the script. -/
inductive Fallback where
  | memory
  /-- Blocks one after the other, whatever the requests ask for. -/
  | contiguous
  | exhausted
  deriving DecidableEq, Repr, Inhabited

structure Rehearsal where
  script : List Step := []
  fallback : Fallback := .memory
  memory : Memory := {}
  /-- Where the next contiguous block starts, once there was one. -/
  next : Option Counter := none
  deriving DecidableEq, Repr, Inhabited

namespace Rehearsal

def askMemory (r : Rehearsal) (request : FetchRequest) : Answer × Rehearsal :=
  let (answer, memory) := r.memory.fetch request
  (answer, { r with memory })

def fetch (r : Rehearsal) (request : FetchRequest) : Answer × Rehearsal :=
  match r.script with
  | step :: rest =>
      let r := { r with script := rest }
      match step.play with
      | .memory => r.askMemory request
      | .answer answer => (answer, r)
  | [] =>
      match r.fallback with
      | .memory => r.askMemory request
      | .contiguous =>
          let first := r.next.getD request.origin
          (.block (Counter.block first request.count.toNat),
            { r with next := some (first + request.count.toUInt64) })
      | .exhausted => (.failed .exhausted, r)

/-- The rehearsal as a source. -/
def source : Source Rehearsal where
  fetch := fetch
  delay r := (r.script.head?.map (·.delay)).getD 0

end Rehearsal

end ShardKeys
