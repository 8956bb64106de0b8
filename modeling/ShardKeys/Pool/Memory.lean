import ShardKeys.Pool.Source

/-!
A backing source held in memory. Every sequence has a position, the next counter to hand out; a
sequence takes its position from the first request for it. A block starts at the position or further
on, where the request asks for it, and moves the position past its end.
-/

namespace ShardKeys

/-- Where each sequence stands, and how many round trips were made. -/
structure Memory where
  positions : List (SequenceName × Counter) := []
  /-- As with the refills of a reserve, a word of 64 bits has room for more than are ever made. -/
  roundTrips : Nat := 0
  deriving DecidableEq, Repr, Inhabited

namespace Memory

def position? (m : Memory) (name : SequenceName) : Option Counter :=
  (m.positions.find? (·.1 = name)).map (·.2)

/-- Sets the position of a sequence in a list of positions. -/
def place (name : SequenceName) (c : Counter) : List (SequenceName × Counter) →
    List (SequenceName × Counter)
  | [] => [(name, c)]
  | e :: rest => if e.1 = name then (name, c) :: rest else e :: place name c rest

/-- The state after a round trip that left a sequence at `c`. -/
def moveTo (m : Memory) (name : SequenceName) (c : Counter) : Memory where
  positions := place name c m.positions
  roundTrips := m.roundTrips + 1

theorem find?_place (name x : SequenceName) (c : Counter)
    (positions : List (SequenceName × Counter)) :
    ((place name c positions).find? (·.1 = x)).map (·.2) =
      if x = name then some c else (positions.find? (·.1 = x)).map (·.2) := by
  induction positions with
  | nil => by_cases h : x = name <;> simp [place, h, eq_comm]
  | cons e rest ih =>
      rw [place]
      split
      · next he => by_cases h : x = name <;> simp [h, he, Ne.symm]
      · next he =>
          by_cases hx : e.1 = x
          · subst hx
            simp [he]
          · simp [hx, ih]

@[simp] theorem position?_moveTo (m : Memory) (name x : SequenceName) (c : Counter) :
    (m.moveTo name c).position? x = if x = name then some c else m.position? x :=
  find?_place name x c m.positions

/-- The next block of a sequence. A block that would pass the last counter is refused; the sequence
then stays where it was, or where the request says that it begins. -/
def fetch (m : Memory) (request : FetchRequest) : Answer × Memory :=
  let position := (m.position? request.sequence).getD request.origin
  let first := if position ≤ request.least then request.least else position
  match Counter.advance? first request.count.toNat with
  | none => (.failed .exhausted, m.moveTo request.sequence position)
  | some next => (.block (Counter.block first request.count.toNat), m.moveTo request.sequence next)

/-- The source in memory. -/
def source : Source Memory where
  fetch := fetch

end Memory

end ShardKeys
