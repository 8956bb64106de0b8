import ShardKeys.Proofs.Pool.Blocks
import ShardKeys.Proofs.Pool.Fleet
import ShardKeys.Proofs.Pool.Uniqueness

/-! # Sequences of different names do not meet

Generators and their source show a sequence name the pools of the sequences of that name and its
position. What is shown decides the calls for the name and is out of reach of all others, refused or
not.
-/

namespace ShardKeys

/-! ## Sources that answer alike -/

/-- States of a source that differ to no one who asks for the sequences of a name. -/
structure Source.Alike {σ : Type} (src : Source σ) (name : SequenceName) (R : σ → σ → Prop) :
    Prop where
  answer : ∀ {w w' request}, R w w' → request.sequence = name →
    (src.fetch w request).1 = (src.fetch w' request).1
  next : ∀ {w w' request}, R w w' → request.sequence = name →
    R (src.fetch w request).2 (src.fetch w' request).2

theorem Memory.source_alike (name : SequenceName) :
    Memory.source.Alike name fun m m' => m.position? name = m'.position? name where
  answer := by
    rintro m m' request h rfl
    simp only [source, fetch, h]
    split <;> rfl
  next := by
    rintro m m' request h rfl
    simp only [source, fetch, h]
    split <;> simp

theorem Reserve.request?_sequence {s : Sequence} {r : Reserve} {request : FetchRequest}
    (h : r.request? s = some request) : request.sequence = s.name := by
  rw [(request?_eq_some h).2]

namespace Reserve

variable {σ : Type} {src : Source σ} {s : Sequence} {R : σ → σ → Prop}

theorem draw_alike (halike : src.Alike s.name R) (limit : Nat) (r : Reserve) (w : σ) :
    ∀ w', R w w' → (draw src s limit r w).outcome = (draw src s limit r w').outcome ∧
      (draw src s limit r w).state.1 = (draw src s limit r w').state.1 ∧
      R (draw src s limit r w).state.2 (draw src s limit r w').state.2 := by
  fun_induction draw src s limit r w with
  | case1 limit r w c rest hq =>
      intro w' h
      rw [draw_of_cons src limit w' hq]
      exact ⟨rfl, rfl, h⟩
  | case2 limit r w hq hr =>
      intro w' h
      rw [draw_of_request?_none src limit w' hq hr]
      exact ⟨rfl, rfl, h⟩
  | case3 r w hq request hr =>
      intro w' h
      rw [draw, hq, hr]
      exact ⟨rfl, rfl, h⟩
  | case4 r w hq request hr limit answer next hfetch exchanges events fault hf =>
      intro w' h
      have hanswer : answer = (src.fetch w' request).1 := by
        simpa [hfetch] using halike.answer h (request?_sequence hr)
      have hnext : R next (src.fetch w' request).2 := by
        simpa [hfetch] using halike.next h (request?_sequence hr)
      rw [draw_of_settle_error src limit w' hq hr (hanswer ▸ hf)]
      exact ⟨rfl, rfl, hnext⟩
  | case5 r w hq request hr limit answer next hfetch exchanges events r' hf ih =>
      intro w' h
      have hanswer : answer = (src.fetch w' request).1 := by
        simpa [hfetch] using halike.answer h (request?_sequence hr)
      have hnext : R next (src.fetch w' request).2 := by
        simpa [hfetch] using halike.next h (request?_sequence hr)
      rw [draw_of_settle_ok src limit w' hq hr (hanswer ▸ hf)]
      exact ih _ hnext

end Reserve

theorem Pool.allocate_alike {σ : Type} {src : Source σ} {p : Pool} {R : σ → σ → Prop}
    (halike : src.Alike p.sequence.name R) {w w' : σ} (h : R w w') :
    (p.allocate src w).outcome = (p.allocate src w').outcome ∧
      (p.allocate src w).state.1 = (p.allocate src w').state.1 ∧
      R (p.allocate src w).state.2 (p.allocate src w').state.2 := by
  obtain ⟨houtcome, hreserve, hsource⟩ :=
    Reserve.draw_alike halike Reserve.roundLimit p.reserve w w' h
  unfold allocate allocateWithin
  split
  · exact ⟨rfl, rfl, h⟩
  · exact ⟨houtcome, by simp only [Call.mapState, houtcome, hreserve], hsource⟩

theorem Pool.position?_allocate_of_ne {p : Pool} {name : SequenceName} (h : name ≠ p.sequence.name)
    (m : Memory) : (p.allocate Memory.source m).state.2.position? name = m.position? name := by
  refine Memory.serves_position?_of_ne (p.allocate_serves Memory.source m) fun e he => ?_
  rwa [(p.allocate_course Memory.source m).sequence_request e he]

/-! ## Generators -/

namespace Generator

variable {σ : Type} {src : Source σ} {g g' : Generator} {s t : Sequence} {p : Pool} {w : σ}

/-- What a generator shows a sequence name: its dialect, and the pools of that name. -/
structure Alike (name : SequenceName) (g g' : Generator) : Prop where
  dialect : g.dialect = g'.dialect
  pool : ∀ s, s.name = name → g.pool? s = g'.pool? s

namespace Alike

variable {name : SequenceName}

theorem refl (name : SequenceName) (g : Generator) : g.Alike name g :=
  ⟨rfl, fun _ _ => rfl⟩

theorem trans {g'' : Generator} (h : g.Alike name g') (h' : g'.Alike name g'') : g.Alike name g'' :=
  ⟨h.dialect.trans h'.dialect, fun s hs => (h.pool s hs).trans (h'.pool s hs)⟩

theorem put (h : g.Alike name g') (p : Pool) : (g.put p).Alike name (g'.put p) where
  dialect := h.dialect
  pool s hs := by rw [pool?_put, pool?_put, h.pool s hs]

theorem add (h : g.Alike name g') (s : Sequence) :
    ({ g with pools := g.pools ++ [.ofSequence s] } : Generator).Alike name
      { g' with pools := g'.pools ++ [.ofSequence s] } where
  dialect := h.dialect
  pool t ht := by rw [pool?_add, pool?_add, h.pool t ht]

end Alike

theorem put_alike {name : SequenceName} (g : Generator) (h : p.sequence.name ≠ name) :
    (g.put p).Alike name g where
  dialect := rfl
  pool t ht := by
    have hne : t ≠ p.sequence := fun hp => h (hp ▸ ht)
    rw [pool?_put, if_neg hne]

theorem openPool_alike_of_ne {name : SequenceName} {opened : Generator} (h : s.name ≠ name)
    (hopen : g.openPool s = .ok (p, opened)) : opened.Alike name g := by
  rcases openPool_eq_ok_iff.mp hopen with ⟨-, rfl⟩ | ⟨-, -, -, rfl⟩
  · exact .refl name _
  · refine ⟨rfl, fun t ht => ?_⟩
    have hne : s ≠ t := fun hst => h (hst ▸ ht)
    rw [pool?_add, if_neg hne, Option.or_none]

/-- Generators that are alike to the name of a sequence refuse it alike, or open the same pool for
it. -/
theorem openPool_alike (h : g.Alike s.name g') :
    (∃ fault, g.openPool s = .error fault ∧ g'.openPool s = .error fault) ∨
      ∃ p opened opened', g.openPool s = .ok (p, opened) ∧ g'.openPool s = .ok (p, opened') ∧
        opened.Alike s.name opened' := by
  unfold openPool
  rw [← h.pool s rfl, ← h.dialect]
  cases g.pool? s with
  | some p => exact .inr ⟨p, g, g', rfl, rfl, h⟩
  | none =>
      cases g.dialect.check s with
      | error fault => exact .inl ⟨fault, rfl, rfl⟩
      | ok _ => exact .inr ⟨.ofSequence s, _, _, rfl, rfl, by simpa [h.dialect] using h.add s⟩

/-- A call for a name goes alike on generators and sources that are alike to the name, and leaves
them alike. -/
theorem next_alike {R : σ → σ → Prop} (hsource : src.Alike s.name R) (h : g.Alike s.name g')
    {w w' : σ} (hw : R w w') :
    (g.next src s w).outcome = (g'.next src s w').outcome ∧
      (g.next src s w).state.1.Alike s.name (g'.next src s w').state.1 ∧
      R (g.next src s w).state.2 (g'.next src s w').state.2 := by
  rcases openPool_alike h with ⟨fault, hg, hg'⟩ | ⟨p, opened, opened', hg, hg', hopened⟩
  · obtain ⟨houtcome, hstate⟩ := next_of_refused src w hg
    obtain ⟨houtcome', hstate'⟩ := next_of_refused src w' hg'
    rw [houtcome, hstate, houtcome', hstate']
    exact ⟨rfl, h, hw⟩
  · obtain ⟨houtcome, hstate⟩ := next_of_opened src w hg
    obtain ⟨houtcome', hstate'⟩ := next_of_opened src w' hg'
    have hp : p.sequence = s := by rw [(openPool_eq_ok hg).1, sequence_poolOf]
    obtain ⟨hvalue, hpool, hnext⟩ := Pool.allocate_alike (hp ▸ hsource) hw
    rw [houtcome, hstate, houtcome', hstate', hvalue, hpool]
    exact ⟨rfl, hopened.put _, hnext⟩

theorem next_hidden {name : SequenceName} (g : Generator) (h : s.name ≠ name) (m : Memory) :
    (g.next Memory.source s m).state.1.Alike name g ∧
      (g.next Memory.source s m).state.2.position? name = m.position? name := by
  cases hopen : g.openPool s with
  | error fault =>
      rw [(next_of_refused Memory.source m hopen).2]
      exact ⟨.refl name g, rfl⟩
  | ok opened =>
      obtain ⟨p, opened⟩ := opened
      have hp : p.sequence = s := by rw [(openPool_eq_ok hopen).1, sequence_poolOf]
      rw [(next_of_opened Memory.source m hopen).2]
      refine ⟨?_, Pool.position?_allocate_of_ne (by rw [hp]; exact h.symm) m⟩
      exact (put_alike opened (by rwa [Pool.sequence_allocate, hp])).trans
        (openPool_alike_of_ne h hopen)

end Generator

/-! ## Fleets -/

namespace Fleet

variable {n : Nat} {f f' : Fleet Memory n}

/-- The generator at a position. -/
def generator (f : Fleet Memory n) (i : Fin n) : Generator :=
  getElem f.generators i i.isLt

/-- What a fleet over memory shows a sequence name. -/
structure Alike (name : SequenceName) (f f' : Fleet Memory n) : Prop where
  generator : ∀ i, (f.generator i).Alike name (f'.generator i)
  position : f.source.position? name = f'.source.position? name

theorem Alike.refl (name : SequenceName) (f : Fleet Memory n) : f.Alike name f :=
  ⟨fun _ => .refl name _, rfl⟩

theorem generator_next (src : Source Memory) (i j : Fin n) (s : Sequence) (f : Fleet Memory n) :
    (f.next src i s).state.generator j =
      if j = i then ((f.generator i).next src s f.source).state.1 else f.generator j := by
  exact getElem_generators_next src i j s f

/-- A call for a name goes alike on fleets that are alike to the name, and leaves them alike. -/
theorem next_alike (i : Fin n) (s : Sequence) (h : f.Alike s.name f') :
    (f.next Memory.source i s).outcome = (f'.next Memory.source i s).outcome ∧
      (f.next Memory.source i s).state.Alike s.name (f'.next Memory.source i s).state := by
  obtain ⟨houtcome, hgenerator, hposition⟩ :=
    Generator.next_alike (Memory.source_alike s.name) (h.generator i) h.position
  refine ⟨houtcome, fun j => ?_, hposition⟩
  rw [generator_next, generator_next]
  split
  · exact hgenerator
  · exact h.generator j

theorem next_hidden {name : SequenceName} (i : Fin n) {s : Sequence} (hs : s.name ≠ name)
    (h : f.Alike name f') : (f.next Memory.source i s).state.Alike name f' := by
  obtain ⟨hgenerator, hposition⟩ := Generator.next_hidden (f.generator i) hs f.source
  refine ⟨fun j => ?_, hposition.trans h.position⟩
  rw [generator_next]
  split
  · next hj => exact hj ▸ hgenerator.trans (h.generator i)
  · exact h.generator j

/-- Runs from fleets that are alike to a name agree on its calls, also when one makes no other
calls. -/
theorem run_alike (name : SequenceName) (calls : List (Fin n × Sequence)) (h : f.Alike name f') :
    (calls.zip (f.run Memory.source calls).values).filter (·.1.2.name = name) =
      (calls.filter (·.2.name = name)).zip
        (f'.run Memory.source (calls.filter (·.2.name = name))).values := by
  induction calls generalizing f f' with
  | nil => rfl
  | cons call rest ih =>
      obtain ⟨i, s⟩ := call
      rw [values_run_cons, List.zip_cons_cons]
      by_cases hs : s.name = name
      · subst hs
        obtain ⟨houtcome, hnext⟩ := next_alike i s h
        rw [List.filter_cons_of_pos (by simp), List.filter_cons_of_pos (by simp), values_run_cons,
          List.zip_cons_cons, houtcome, ih hnext]
      · rw [List.filter_cons_of_neg (by simpa using hs),
          List.filter_cons_of_neg (by simpa using hs)]
        exact ih (next_hidden i hs h)

/-- On generators over one fresh memory, the calls for the sequences of a name have the outcomes
that they have when all other calls are left out, be they answered, failed or refused. -/
theorem run_isolates (dialects : Vector Dialect n) (calls : List (Fin n × Sequence))
    (name : SequenceName) :
    let fleet := ofDialects dialects ({} : Memory)
    let kept := calls.filter (·.2.name = name)
    (fleet.run Memory.source calls).values.length = calls.length ∧
      (calls.zip (fleet.run Memory.source calls).values).filter (·.1.2.name = name) =
        kept.zip (fleet.run Memory.source kept).values :=
  ⟨Call.length_each _ calls _, run_alike name calls (.refl name _)⟩

end Fleet

end ShardKeys
