import ShardKeys.Pool.Generator
import ShardKeys.Proofs.Fallible
import ShardKeys.Proofs.Pool.Run

/-! # What a call on a fleet does

A generator is seen through the pools that its next calls find: the pool of a sequence that was not
asked for yet is a new one, unless the dialect refuses the sequence. Seen this way a call changes
one pool, and opening a pool changes nothing.
-/

namespace ShardKeys

variable {σ : Type}

namespace Generator

/-- The pool that the next call for a sequence finds. -/
def poolOf (g : Generator) (s : Sequence) : Pool :=
  (g.pool? s).getD (.ofSequence s)

theorem sequence_of_pool? {g : Generator} {s : Sequence} {p : Pool} (h : g.pool? s = some p) :
    p.sequence = s := by
  simpa using List.find?_some h

@[simp] theorem sequence_poolOf (g : Generator) (s : Sequence) : (g.poolOf s).sequence = s := by
  unfold poolOf
  cases h : g.pool? s with
  | none => rfl
  | some p => exact sequence_of_pool? h

theorem pool?_add (g : Generator) (s t : Sequence) :
    ({ g with pools := g.pools ++ [Pool.ofSequence s] } : Generator).pool? t =
      (g.pool? t).or (if s = t then some (.ofSequence s) else none) := by
  by_cases hst : s = t <;> simp [pool?, List.find?_append, Pool.ofSequence, hst]

theorem openPool_eq_ok_iff {g g' : Generator} {s : Sequence} {p : Pool} :
    g.openPool s = .ok (p, g') ↔ (g.pool? s = some p ∧ g' = g) ∨
      (g.pool? s = none ∧ g.dialect.check s = .ok () ∧ p = .ofSequence s ∧
        g' = { g with pools := g.pools ++ [.ofSequence s] }) := by
  unfold openPool
  cases hp : g.pool? s with
  | some q => simp [eq_comm]
  | none =>
      cases hc : g.dialect.check s with
      | error fault => simp
      | ok _ => simp [eq_comm]

/-- An opened pool is the one that the generator shows for the sequence, and is found again. -/
theorem openPool_eq_ok {g g' : Generator} {s : Sequence} {p : Pool}
    (h : g.openPool s = .ok (p, g')) : p = g.poolOf s ∧ g'.pool? s = some p := by
  rcases openPool_eq_ok_iff.mp h with ⟨hp, rfl⟩ | ⟨hp, -, rfl, rfl⟩
  · exact ⟨by simp [poolOf, hp], hp⟩
  · exact ⟨by simp [poolOf, hp], by rw [pool?_add, hp]; simp⟩

theorem pool?_put (g : Generator) (p : Pool) (t : Sequence) :
    (g.put p).pool? t = if t = p.sequence then (g.pool? t).map fun _ => p else g.pool? t := by
  unfold put pool?
  induction g.pools with
  | nil => simp
  | cons q rest ih =>
      rw [List.map_cons, List.find?_cons, List.find?_cons, ih]
      by_cases hq : q.sequence = p.sequence
      · by_cases ht : p.sequence = t
        · simp [hq, ht]
        · simp [hq, ht, Ne.symm ht]
      · by_cases ht : q.sequence = t
        · subst ht
          simp [hq]
        · simp [hq, ht]

/-- The pool that a generator hands out for a sequence. -/
def handedOut (g : Generator) (s : Sequence) : Except ConfigurationFault Pool :=
  (g.openPool s).map (·.1)

section HandedOut

variable {g opened : Generator} {s : Sequence} {p : Pool}

theorem handedOut_eq (g : Generator) (s : Sequence) :
    g.handedOut s =
      match g.pool? s with
      | some p => .ok p
      | none => (g.dialect.check s).map fun _ => .ofSequence s := by
  unfold handedOut openPool
  cases g.pool? s with
  | some p => rfl
  | none =>
      cases g.dialect.check s with
      | error fault => rfl
      | ok _ => rfl

theorem handedOut_eq_ok_iff : g.handedOut s = .ok p ↔ ∃ opened, g.openPool s = .ok (p, opened) := by
  rw [handedOut, map_eq_ok_iff]
  simp [Prod.exists]

theorem handedOut_eq_error_iff {fault : ConfigurationFault} :
    g.handedOut s = .error fault ↔ g.openPool s = .error fault :=
  map_eq_error_iff

theorem sequence_of_handedOut (h : g.handedOut s = .ok p) : p.sequence = s := by
  obtain ⟨opened, hopen⟩ := handedOut_eq_ok_iff.mp h
  rw [(openPool_eq_ok hopen).1, sequence_poolOf]

theorem poolOf_eq_handedOut (g : Generator) (s : Sequence) :
    g.poolOf s = (g.handedOut s).toOption.getD (.ofSequence s) := by
  rw [handedOut_eq, poolOf]
  cases g.pool? s with
  | some p => rfl
  | none => cases g.dialect.check s <;> rfl

end HandedOut

/-- The outcome of a call for a key whose pool made a call for a counter. -/
def keyOutcome (s : Sequence) : Except PoolFault Counter → Except KeyFault Key
  | .ok c => .ok c.toKey
  | .error fault => .error (.pool s fault)

theorem next_of_refused {g : Generator} {s : Sequence} {fault : ConfigurationFault} (src : Source σ)
    (w : σ)
    (h : g.openPool s = .error fault) :
    (g.next src s w).outcome = .error (.refused fault) ∧ (g.next src s w).state = (g, w) := by
  simp [next, keyBy, h, Call.following]

theorem next_of_opened {g opened : Generator} {s : Sequence} {p : Pool} (src : Source σ) (w : σ)
    (h : g.openPool s = .ok (p, opened)) :
    (g.next src s w).outcome = keyOutcome s (p.allocate src w).outcome ∧
      (g.next src s w).state =
        (opened.put (p.allocate src w).state.1, (p.allocate src w).state.2) := by
  constructor
  · simp only [next, keyBy, h, Call.following]
    cases (p.allocate src w).outcome <;> rfl
  · simp only [next, keyBy, h, Call.following]

theorem exchanges_next_of_refused {g : Generator} {s : Sequence} {fault : ConfigurationFault}
    (src : Source σ)
    (w : σ) (h : g.openPool s = .error fault) : (g.next src s w).exchanges = [] := by
  simp [next, keyBy, h, Call.following]

theorem exchanges_next_of_opened {g opened : Generator} {s : Sequence} {p : Pool} (src : Source σ)
    (w : σ)
    (h : g.openPool s = .ok (p, opened)) :
    (g.next src s w).exchanges = (p.allocate src w).exchanges := by
  simp [next, keyBy, h, Call.following]

/-- A call on an opened pool changes what is handed out for its sequence only. -/
theorem handedOut_next {g opened : Generator} {s : Sequence} {p : Pool} (src : Source σ) (w : σ)
    (hopen : g.openPool s = .ok (p, opened)) (t : Sequence) :
    (g.next src s w).state.1.handedOut t =
      if t = s then .ok (p.allocate src w).state.1 else g.handedOut t := by
  have hsequence : (p.allocate src w).state.1.sequence = s := by
    rw [Pool.sequence_allocate, (openPool_eq_ok hopen).1, sequence_poolOf]
  rw [(next_of_opened src w hopen).2, handedOut_eq, pool?_put, hsequence]
  by_cases hts : t = s
  · rw [if_pos hts, if_pos hts, hts, (openPool_eq_ok hopen).2]
    rfl
  · rw [if_neg hts, if_neg hts, handedOut_eq]
    rcases openPool_eq_ok_iff.mp hopen with ⟨-, rfl⟩ | ⟨-, -, -, rfl⟩
    · rfl
    · rw [pool?_add, if_neg (Ne.symm hts), Option.or_none]
      rfl

end Generator

namespace Fleet

variable {n : Nat}

/-- The pool that the next call for a sequence on one generator finds. -/
def poolOf (f : Fleet σ n) (i : Fin n) (s : Sequence) : Pool :=
  (getElem f.generators i i.isLt).poolOf s

@[simp] theorem sequence_poolOf (f : Fleet σ n) (i : Fin n) (s : Sequence) :
    (f.poolOf i s).sequence = s :=
  Generator.sequence_poolOf _ s

theorem poolOf_ofDialects (dialects : Vector Dialect n) (w : σ) (i : Fin n) (s : Sequence) :
    (ofDialects dialects w).poolOf i s = .ofSequence s := by
  simp [ofDialects, poolOf, Generator.poolOf, Generator.pool?]

theorem getElem_generators_next (src : Source σ) (i j : Fin n) (s : Sequence) (f : Fleet σ n) :
    getElem (f.next src i s).state.generators j j.isLt =
      if j = i then ((getElem f.generators i i.isLt).next src s f.source).state.1
      else getElem f.generators j j.isLt := by
  simp only [next, on, Call.mapState, Fin.getElem_fin, Vector.getElem_set, Fin.val_inj, eq_comm]

/-- The pool that a generator of the fleet hands out for a sequence. -/
def handedOut (f : Fleet σ n) (i : Fin n) (s : Sequence) : Except ConfigurationFault Pool :=
  (getElem f.generators i i.isLt).handedOut s

theorem next_of_handedOut_error {f : Fleet σ n} {i : Fin n} {s : Sequence}
    {fault : ConfigurationFault}
    (src : Source σ) (h : f.handedOut i s = .error fault) :
    (f.next src i s).outcome = .error (.refused fault) ∧ (f.next src i s).state = f := by
  obtain ⟨houtcome, hstate⟩ :=
    Generator.next_of_refused src f.source (Generator.handedOut_eq_error_iff.mp h)
  refine ⟨houtcome, ?_⟩
  rw [next, on, Call.mapState, hstate]
  simp

/-- A call for which a pool is handed out is a call on that pool, and changes only it and the
source. -/
theorem next_of_handedOut {f : Fleet σ n} {i : Fin n} {s : Sequence} {p : Pool} (src : Source σ)
    (h : f.handedOut i s = .ok p) :
    (f.next src i s).outcome = Generator.keyOutcome s (p.allocate src f.source).outcome ∧
      (f.next src i s).state.source = (p.allocate src f.source).state.2 ∧
      ∀ j t, (f.next src i s).state.handedOut j t =
        if j = i ∧ t = s then .ok (p.allocate src f.source).state.1 else f.handedOut j t := by
  obtain ⟨opened, hopen⟩ := Generator.handedOut_eq_ok_iff.mp h
  obtain ⟨houtcome, hstate⟩ := Generator.next_of_opened src f.source hopen
  refine ⟨houtcome, congrArg Prod.snd hstate, fun j t => ?_⟩
  rw [handedOut, getElem_generators_next]
  by_cases hji : j = i
  · rw [if_pos hji, Generator.handedOut_next src f.source hopen, hji, handedOut]
    simp
  · rw [if_neg hji, if_neg (fun hjt => hji hjt.1), handedOut]

theorem poolOf_eq_handedOut (f : Fleet σ n) (i : Fin n) (s : Sequence) :
    f.poolOf i s = (f.handedOut i s).toOption.getD (.ofSequence s) :=
  Generator.poolOf_eq_handedOut _ s

theorem poolOf_eq_of_handedOut {f : Fleet σ n} {i : Fin n} {s : Sequence} {p : Pool}
    (h : f.handedOut i s = .ok p) : f.poolOf i s = p := by
  rw [poolOf_eq_handedOut, h]
  rfl

/-- A call on a fleet is refused and changes nothing, or it is a call on one pool and changes only
that pool and the source. -/
theorem next_cases (src : Source σ) (i : Fin n) (s : Sequence) (f : Fleet σ n) :
    (∃ fault, (f.next src i s).outcome = .error (.refused fault) ∧
      (f.next src i s).state.source = f.source ∧
      ∀ j t, (f.next src i s).state.poolOf j t = f.poolOf j t) ∨
    ((f.next src i s).outcome =
        Generator.keyOutcome s ((f.poolOf i s).allocate src f.source).outcome ∧
      (f.next src i s).state.source = ((f.poolOf i s).allocate src f.source).state.2 ∧
      ∀ j t, (f.next src i s).state.poolOf j t =
        if j = i ∧ t = s then ((f.poolOf i s).allocate src f.source).state.1
        else f.poolOf j t) := by
  cases h : f.handedOut i s with
  | error fault =>
      obtain ⟨houtcome, hstate⟩ := next_of_handedOut_error src h
      rw [hstate]
      exact .inl ⟨fault, houtcome, rfl, fun j t => rfl⟩
  | ok p =>
      obtain ⟨houtcome, hsource, hpools⟩ := next_of_handedOut src h
      obtain rfl := poolOf_eq_of_handedOut h
      refine .inr ⟨houtcome, hsource, fun j t => ?_⟩
      rw [poolOf_eq_handedOut, hpools]
      split
      · rfl
      · rw [poolOf_eq_handedOut]

theorem exchanges_next_of_handedOut_error {f : Fleet σ n} {i : Fin n} {s : Sequence}
    {fault : ConfigurationFault} (src : Source σ) (h : f.handedOut i s = .error fault) :
    (f.next src i s).exchanges = [] :=
  Generator.exchanges_next_of_refused src f.source (Generator.handedOut_eq_error_iff.mp h)

theorem exchanges_next_of_handedOut {f : Fleet σ n} {i : Fin n} {s : Sequence} {p : Pool}
    (src : Source σ)
    (h : f.handedOut i s = .ok p) :
    (f.next src i s).exchanges = (p.allocate src f.source).exchanges := by
  obtain ⟨opened, hopen⟩ := Generator.handedOut_eq_ok_iff.mp h
  exact Generator.exchanges_next_of_opened src f.source hopen

theorem next_serves (src : Source σ) (f : Fleet σ n) (i : Fin n) (s : Sequence) :
    src.Serves f.source (f.next src i s).exchanges (f.next src i s).state.source := by
  cases h : f.handedOut i s with
  | error fault =>
      rw [exchanges_next_of_handedOut_error src h, (next_of_handedOut_error src h).2]
      rfl
  | ok p =>
      rw [exchanges_next_of_handedOut src h, (next_of_handedOut src h).2.1]
      exact p.allocate_serves src f.source

/-- Calls for keys, each on one generator of the fleet and for one sequence. -/
def run (src : Source σ) (calls : List (Fin n × Sequence)) (f : Fleet σ n) :
    Series Empty (Except KeyFault Key) (Fleet σ n) :=
  Call.each (fun (i, s) f => f.next src i s) calls f

theorem values_run_cons (src : Source σ) (i : Fin n) (s : Sequence)
    (calls : List (Fin n × Sequence)) (f : Fleet σ n) :
    (f.run src ((i, s) :: calls)).values =
      (f.next src i s).outcome :: ((f.next src i s).state.run src calls).values := rfl

theorem run_append (src : Source σ) (calls more : List (Fin n × Sequence)) (f : Fleet σ n) :
    (f.run src (calls ++ more)).values =
        (f.run src calls).values ++ ((f.run src calls).state.run src more).values ∧
      (f.run src (calls ++ more)).state = ((f.run src calls).state.run src more).state := by
  induction calls generalizing f with
  | nil => exact ⟨rfl, rfl⟩
  | cons call calls ih =>
      obtain ⟨i, s⟩ := call
      obtain ⟨hvalues, hstate⟩ := ih (f.next src i s).state
      refine ⟨?_, hstate⟩
      rw [List.cons_append, values_run_cons, values_run_cons, hvalues, List.cons_append]
      rfl

end Fleet

end ShardKeys
