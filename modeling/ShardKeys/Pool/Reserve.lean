import ShardKeys.Event

/-!
Reserves: the counters that a pool has fetched and not yet issued, and the mark below which it takes
in nothing more. A block is folded into a reserve in one step; what lies below the mark may have
been issued before and is dropped, as is what the sequence excludes.
-/

namespace ShardKeys

structure Reserve where
  /-- One past the largest counter seen so far. -/
  mark : Counter
  /-- The counters to issue, the next one first. -/
  queue : List Counter := []
  /-- How many blocks were taken in. A word of 64 bits has room for them: at one in a nanosecond it
  takes more than five hundred years to fill it. -/
  refills : Nat := 0
  deriving DecidableEq

namespace Reserve

/-- The mark after a block: past every counter of the block that is not below it. -/
def markAfter (mark : Counter) (block : List Counter) : Counter :=
  block.foldl (fun mark c => if mark ≤ c then Counter.after c else mark) mark

/-- The counters of a block that may be issued. -/
def usable (mark : Counter) (excluded : ExclusionSet) (block : List Counter) : List Counter :=
  block.filter fun c => mark ≤ c && !excluded.excludes c

theorem mem_usable_iff {mark c : Counter} {excluded : ExclusionSet} {block : List Counter} :
    c ∈ usable mark excluded block ↔ c ∈ block ∧ mark ≤ c ∧ ¬excluded.excludes c := by
  simp [usable]

/-- Takes in a block. -/
def accept (r : Reserve) (excluded : ExclusionSet) (block : List Counter) : Reserve where
  mark := markAfter r.mark block
  queue := r.queue ++ usable r.mark excluded block
  refills := r.refills + 1

/-- How many counters of a block are of no use. -/
def discarded (r : Reserve) (excluded : ExclusionSet) (block : List Counter) : Nat :=
  block.length - (usable r.mark excluded block).length

@[simp] theorem queue_accept (r : Reserve) (excluded : ExclusionSet) (block : List Counter) :
    (r.accept excluded block).queue = r.queue ++ usable r.mark excluded block := rfl

@[simp] theorem refills_accept (r : Reserve) (excluded : ExclusionSet) (block : List Counter) :
    (r.accept excluded block).refills = r.refills + 1 := rfl

/-- A counter of use is there to issue. -/
theorem queue_accept_ne_nil {r : Reserve} {excluded : ExclusionSet} {block : List Counter}
    {c : Counter}
    (hc : c ∈ block) (hmark : r.mark ≤ c) (hallowed : ¬excluded.excludes c) :
    (r.accept excluded block).queue ≠ [] :=
  List.ne_nil_of_mem (List.mem_append_right r.queue (mem_usable_iff.mpr ⟨hc, hmark, hallowed⟩))

/-- What a block adds to the queue and what it loses make up the block. -/
theorem length_queue_accept_add_discarded (r : Reserve) (excluded : ExclusionSet)
    (block : List Counter) :
    (r.accept excluded block).queue.length + r.discarded excluded block =
      r.queue.length + block.length := by
  have : (usable r.mark excluded block).length ≤ block.length := List.length_filter_le _ _
  simp only [queue_accept, List.length_append, discarded]
  omega

/-- The reserve of a sequence from which nothing was drawn. -/
def fresh (s : Sequence) : Reserve where
  mark := s.start

/-- The request for the next block, unless every counter from the mark on is excluded. -/
def request? (s : Sequence) (r : Reserve) : Option FetchRequest :=
  (s.excluded.leastAllowed? r.mark).map fun least =>
    { sequence := s.name, origin := s.start, least, count := s.poolSize }

end Reserve

/-- Why a pool issued no counter. -/
inductive PoolFault where
  | refill (fault : FetchFault)
  /-- The source crashed during this call. -/
  | crashed
  /-- The source crashed during an earlier call and left the pool locked. -/
  | poisoned
  /-- The source kept answering without a counter of use. -/
  | fruitless
  deriving DecidableEq, Repr

namespace PoolFault

/-- What a fault leaves in the log. -/
def events (s : Sequence) : PoolFault → List Event
  | refill fault => [.refillFailed s.name fault]
  | _ => []

end PoolFault

namespace Reserve

/-- What an answer makes of a reserve. A block without counters means that the sequence has none
left. -/
def settle (s : Sequence) (r : Reserve) : Answer → Except PoolFault Reserve
  | .block [] => .error (.refill .exhausted)
  | .block counters => .ok (r.accept s.excluded counters)
  | .failed fault => .error (.refill fault)
  | .crashed => .error .crashed

/-- What an answer leaves in the log. -/
def settleEvents (s : Sequence) (r : Reserve) (request : FetchRequest) : Answer → List Event
  | .block [] => PoolFault.events s (.refill .exhausted)
  | .block counters =>
      [.refilled s.name request.least (r.accept s.excluded counters).queue.length
        (r.discarded s.excluded counters)]
  | .failed fault => PoolFault.events s (.refill fault)
  | .crashed => []

end Reserve

end ShardKeys
