import ShardKeys.Proofs.Pool.Blocks
import ShardKeys.Proofs.Pool.Fleet
import ShardKeys.Proofs.Pool.Uniqueness

/-! # Generators that share a source

Pools of one sequence name may differ in where they start, how much they fetch and what they
exclude, and still issue no counter twice, as they all take their blocks from one position.
-/

namespace ShardKeys

/-! ## One call on one pool -/

/-- A call that fetched some counters: they join the queue, whose head is issued, and all of them
are allowed and lie between the bounds of the sequence before and after the call. -/
structure Pool.Fetched (p : Pool) (m : Memory) (fetched cs : List Counter) (p' : Pool)
    (m' : Memory) :
    Prop where
  queue : p.reserve.queue ++ fetched = cs ++ p'.reserve.queue
  mark : ∃ seen, p'.reserve.mark.toNat = p.sequence.highWater seen
  nodup : fetched.Nodup
  allows : ∀ c ∈ fetched, p.sequence.Allows c
  between : ∀ c ∈ fetched,
    m.bound p.sequence.name ≤ c.toNat ∧ c.toNat < m'.bound p.sequence.name
  bound_le : ∀ name, m.bound name ≤ m'.bound name

theorem Pool.allocate_fetched {p : Pool} {seen : List Counter} (m : Memory)
    (hmark : p.reserve.mark.toNat = p.sequence.highWater seen) :
    ∃ fetched, p.Fetched m fetched (issuedBy (p.allocate Memory.source m).outcome)
      (p.allocate Memory.source m).state.1 (p.allocate Memory.source m).state.2 := by
  have hcourse := Pool.allocate_course Memory.source p m
  have hserves := Pool.allocate_serves Memory.source p m
  have hbooks := hcourse.accounts hmark
  have hnames := hcourse.sequence_request
  obtain ⟨hle, hnodup, hbetween⟩ := Memory.serves_between hserves hnames
  have hyields := p.sequence.yields_sublist seen (blocks (p.allocate Memory.source m).exchanges)
  rw [flatten_blocks] at hyields
  refine ⟨_, hbooks.fifo.symm, ⟨_, hbooks.mark⟩, hyields.nodup hnodup, ?_, ?_, ?_⟩
  · intro c hc
    exact Sequence.allows_of_mem_yields hc
  · intro c hc
    exact hbetween c (hyields.subset hc)
  · intro name
    by_cases hname : name = p.sequence.name
    · exact hname ▸ hle
    · refine Nat.le_of_eq (Memory.bound_eq_of_position? ?_).symm
      apply Memory.serves_position?_of_ne hserves
      intro e he
      rw [hnames e he]
      exact hname

theorem Pool.Fetched.nothing {p : Pool} {seen : List Counter} (m : Memory)
    (hmark : p.reserve.mark.toNat = p.sequence.highWater seen) : p.Fetched m [] [] p m :=
  ⟨by simp, ⟨seen, hmark⟩, .nil, by simp, by simp, fun _ => Nat.le_refl _⟩

/-- The name of the orders, counted from one in blocks of two. -/
def Sequence.orderPairs : Sequence where
  name := Sequence.orders.name
  start := 1
  poolSize := 2
  excluded := .empty
  start_pos := by decide
  start_lt := by decide
  poolSize_pos := by decide

/-! ## Many pools -/

namespace Fleet

variable {n : Nat}

/-- All that a pool ever took in for issue: what it has issued and what still waits. -/
def stock (f : Fleet Memory n) (taken : Fin n → Sequence → List Counter) (i : Fin n)
    (s : Sequence) : List Counter :=
  taken i s ++ (f.poolOf i s).reserve.queue

/-- The stocks of the pools, of which some counters are taken, hold allowed counters below the
position of the source, and no counter of a sequence name lies in two places. -/
structure Apart (f : Fleet Memory n) (taken : Fin n → Sequence → List Counter) : Prop where
  mark : ∀ i s, ∃ seen, (f.poolOf i s).reserve.mark.toNat = s.highWater seen
  allows : ∀ i s, ∀ c ∈ f.stock taken i s, s.Allows c
  below : ∀ i s, ∀ c ∈ f.stock taken i s, c.toNat < f.source.bound s.name
  nodup : ∀ i s, (f.stock taken i s).Nodup
  apart : ∀ i s j t, s.name = t.name → ¬(j = i ∧ t = s) →
    ∀ c ∈ f.stock taken i s, c ∉ f.stock taken j t

theorem apart_ofDialects (dialects : Vector Dialect n) :
    (ofDialects dialects ({} : Memory)).Apart fun _ _ => [] := by
  have hempty : ∀ i s, (ofDialects dialects ({} : Memory)).stock (fun _ _ => []) i s = [] := by
    intro i s
    rw [stock, poolOf_ofDialects]
    rfl
  constructor
  case mark =>
    intro i s
    rw [poolOf_ofDialects]
    exact ⟨[], s.highWater_nil.symm⟩
  all_goals simp [hempty]

/-- The counters taken, after one pool issued some more. -/
def takenAfter (taken : Fin n → Sequence → List Counter) (i : Fin n) (s : Sequence)
    (cs : List Counter) (j : Fin n) (t : Sequence) : List Counter :=
  if j = i ∧ t = s then taken i s ++ cs else taken j t

/-! ## One call in a fleet -/

section Step

variable {f f' : Fleet Memory n} {taken : Fin n → Sequence → List Counter} {i j : Fin n}
  {s t : Sequence} {p' : Pool} {fetched cs : List Counter} {c : Counter}
  (hpools : ∀ j t, f'.poolOf j t = if j = i ∧ t = s then p' else f.poolOf j t)
  (hp : (f.poolOf i s).Fetched f.source fetched cs p' f'.source)

include hp hpools

theorem stock_step (j : Fin n) (t : Sequence) :
    f'.stock (takenAfter taken i s cs) j t =
      if j = i ∧ t = s then f.stock taken i s ++ fetched else f.stock taken j t := by
  unfold stock takenAfter
  rw [hpools]
  split
  · rw [List.append_assoc, List.append_assoc, hp.queue]
  · rfl

theorem mem_stock_step :
    c ∈ f'.stock (takenAfter taken i s cs) j t ↔
      c ∈ f.stock taken j t ∨ (j = i ∧ t = s) ∧ c ∈ fetched := by
  rw [stock_step hpools hp]
  by_cases hjt : j = i ∧ t = s
  · obtain ⟨rfl, rfl⟩ := hjt
    simp
  · simp [hjt]

namespace Apart

variable (h : f.Apart taken)

include h

omit hpools in
/-- What was fetched lies above everything in stock under the same name. -/
theorem notMem_of_fetched (hc : c ∈ fetched) (hname : t.name = s.name) : c ∉ f.stock taken j t := by
  intro hmem
  have hbelow := h.below j t c hmem
  have habove := (hp.between c hc).1
  rw [sequence_poolOf] at habove
  rw [hname] at hbelow
  omega

theorem mark_step (j : Fin n) (t : Sequence) :
    ∃ seen, (f'.poolOf j t).reserve.mark.toNat = t.highWater seen := by
  by_cases hjt : j = i ∧ t = s
  · obtain ⟨rfl, rfl⟩ := hjt
    rw [hpools, if_pos ⟨rfl, rfl⟩]
    simpa using hp.mark
  · rw [hpools, if_neg hjt]
    exact h.mark j t

theorem allows_step (hc : c ∈ f'.stock (takenAfter taken i s cs) j t) : t.Allows c := by
  rcases (mem_stock_step hpools hp).mp hc with hold | ⟨⟨-, rfl⟩, hnew⟩
  · exact h.allows j t c hold
  · simpa using hp.allows c hnew

theorem below_step (hc : c ∈ f'.stock (takenAfter taken i s cs) j t) :
    c.toNat < f'.source.bound t.name := by
  rcases (mem_stock_step hpools hp).mp hc with hold | ⟨⟨-, rfl⟩, hnew⟩
  · exact Nat.lt_of_lt_of_le (h.below j t c hold) (hp.bound_le t.name)
  · simpa using (hp.between c hnew).2

theorem nodup_step (j : Fin n) (t : Sequence) :
    (f'.stock (takenAfter taken i s cs) j t).Nodup := by
  rw [stock_step hpools hp]
  split
  · refine List.nodup_append.mpr ⟨h.nodup i s, hp.nodup, ?_⟩
    intro c hc d hd hcd
    exact h.notMem_of_fetched hp hd rfl (hcd ▸ hc)
  · exact h.nodup j t

theorem apart_step {j' : Fin n} {t' : Sequence} (hname : t.name = t'.name)
    (hne : ¬(j' = j ∧ t' = t)) (hc : c ∈ f'.stock (takenAfter taken i s cs) j t) :
    c ∉ f'.stock (takenAfter taken i s cs) j' t' := by
  intro hc'
  rcases (mem_stock_step hpools hp).mp hc with hold | ⟨⟨rfl, rfl⟩, hnew⟩
  · rcases (mem_stock_step hpools hp).mp hc' with hold' | ⟨⟨rfl, rfl⟩, hnew'⟩
    · exact h.apart j t j' t' hname hne c hold hold'
    · exact h.notMem_of_fetched hp hnew' hname hold
  · rcases (mem_stock_step hpools hp).mp hc' with hold' | ⟨hsame, -⟩
    · exact h.notMem_of_fetched hp hnew hname.symm hold'
    · exact hne hsame

theorem step : f'.Apart (takenAfter taken i s cs) where
  mark := h.mark_step hpools hp
  allows := fun _ _ _ => h.allows_step hpools hp
  below := fun _ _ _ => h.below_step hpools hp
  nodup := h.nodup_step hpools hp
  apart := fun _ _ _ _ hname hne _ => h.apart_step hpools hp hname hne

end Apart

end Step

theorem Apart.issued {f' : Fleet Memory n} {taken : Fin n → Sequence → List Counter} {i : Fin n}
    {s : Sequence} {cs : List Counter} (h : f'.Apart (takenAfter taken i s cs)) {c : Counter}
    (hc : c ∈ cs) : s.Allows c ∧ ∀ j t, t.name = s.name → c ∉ taken j t := by
  have hself : f'.stock (takenAfter taken i s cs) i s =
      (taken i s ++ cs) ++ (f'.poolOf i s).reserve.queue := by
    rw [stock, takenAfter, if_pos ⟨rfl, rfl⟩]
  have hmem : c ∈ f'.stock (takenAfter taken i s cs) i s := by
    rw [hself]
    exact List.mem_append_left _ (List.mem_append_right _ hc)
  refine ⟨h.allows i s c hmem, ?_⟩
  intro j t hname htaken
  by_cases hjt : j = i ∧ t = s
  · obtain ⟨rfl, rfl⟩ := hjt
    have hnodup := h.nodup j t
    rw [hself] at hnodup
    exact (List.nodup_append.mp (List.nodup_append.mp hnodup).1).2.2 c htaken c hc rfl
  · apply h.apart i s j t hname.symm hjt c hmem
    rw [stock, takenAfter, if_neg hjt]
    exact List.mem_append_left _ htaken

/-! ## Runs of a fleet -/

/-- A call keeps all stocks apart, and the key that it returns is made of a counter that it
takes. -/
theorem Apart.next {f : Fleet Memory n} {taken : Fin n → Sequence → List Counter}
    (h : f.Apart taken) (i : Fin n) (s : Sequence) :
    ∃ cs, (f.next Memory.source i s).state.Apart (takenAfter taken i s cs) ∧
      ∀ key, (f.next Memory.source i s).outcome = .ok key → ∃ c ∈ cs, key = c.toKey := by
  obtain ⟨seen, hstart⟩ := h.mark i s
  have hmark : (f.poolOf i s).reserve.mark.toNat = (f.poolOf i s).sequence.highWater seen := by
    rw [sequence_poolOf, hstart]
  rcases next_cases Memory.source i s f with
    ⟨fault, houtcome, hsource, hpools⟩ | ⟨houtcome, hsource, hpools⟩
  · have hp : (f.poolOf i s).Fetched f.source [] [] (f.poolOf i s)
        (f.next Memory.source i s).state.source := by
      rw [hsource]
      exact Pool.Fetched.nothing f.source hmark
    refine ⟨[], h.step ?_ hp, by simp [houtcome]⟩
    intro j t
    rw [hpools]
    split
    · next hjt => rw [hjt.1, hjt.2]
    · rfl
  · obtain ⟨fetched, hp⟩ := Pool.allocate_fetched f.source hmark
    rw [← hsource] at hp
    refine ⟨_, h.step hpools hp, ?_⟩
    intro key hkey
    rw [houtcome] at hkey
    cases hcounter : ((f.poolOf i s).allocate Memory.source f.source).outcome with
    | error fault => simp [hcounter, Generator.keyOutcome] at hkey
    | ok c =>
        simp only [hcounter, Generator.keyOutcome, Except.ok.injEq] at hkey
        exact ⟨c, by simp, hkey.symm⟩

/-- In a run from stocks that lie apart, every key is made of an allowed counter that no pool of the
same name issued before, in the run or ahead of it. -/
theorem Apart.run {f : Fleet Memory n} {taken : Fin n → Sequence → List Counter}
    (h : f.Apart taken) (calls : List (Fin n × Sequence)) :
    (∀ x ∈ calls.zip (f.run Memory.source calls).values, ∀ key, x.2 = .ok key →
      ∃ c, key = c.toKey ∧ x.1.2.Allows c ∧ ∀ j t, t.name = x.1.2.name → c ∉ taken j t) ∧
    (calls.zip (f.run Memory.source calls).values).Pairwise fun x y =>
      x.1.2.name = y.1.2.name → ∀ key, x.2 = .ok key → y.2 ≠ .ok key := by
  induction calls generalizing f taken with
  | nil => simp
  | cons call calls ih =>
      obtain ⟨i, s⟩ := call
      obtain ⟨cs, hnext, hkeys⟩ := h.next i s
      obtain ⟨hlater, hpairs⟩ := ih hnext
      have htaken : ∀ j t c, c ∈ taken j t → c ∈ takenAfter taken i s cs j t := by
        intro j t c hc
        unfold takenAfter
        split
        · next hjt =>
            rw [hjt.1, hjt.2] at hc
            exact List.mem_append_left _ hc
        · exact hc
      rw [values_run_cons, List.zip_cons_cons]
      constructor
      · intro x hx key hkey
        rcases List.mem_cons.mp hx with rfl | hx
        · obtain ⟨c, hc, rfl⟩ := hkeys key hkey
          exact ⟨c, rfl, hnext.issued hc⟩
        · obtain ⟨c, hc, hallows, hfree⟩ := hlater x hx key hkey
          refine ⟨c, hc, hallows, ?_⟩
          intro j t hname hmem
          exact hfree j t hname (htaken j t c hmem)
      · refine List.pairwise_cons.mpr ⟨?_, hpairs⟩
        intro y hy hname key hkey hsame
        obtain ⟨c, hc, hckey⟩ := hkeys key hkey
        obtain ⟨d, hdkey, -, hfree⟩ := hlater y hy key hsame
        have hcd : c = d := by
          rw [← Counter.toKey_toKey c, ← hckey, hdkey, Counter.toKey_toKey]
        apply hfree i s hname
        rw [takenAfter, if_pos ⟨rfl, rfl⟩]
        exact List.mem_append_right _ (hcd ▸ hc)

/-- Any number of generators over one new source in memory, and any calls on them, whatever comes of
each: two calls for sequences of one name never return the same key, and every key is made of a
counter that its sequence allows. -/
theorem run_keys_distinct (dialects : Vector Dialect n) (calls : List (Fin n × Sequence)) :
    let run := (ofDialects dialects ({} : Memory)).run Memory.source calls
    run.values.length = calls.length ∧
      ((calls.zip run.values).Pairwise fun x y =>
        x.1.2.name = y.1.2.name → ∀ key, x.2 = .ok key → y.2 ≠ .ok key) ∧
      ∀ x ∈ calls.zip run.values, ∀ key, x.2 = .ok key →
        ∃ c : Counter, key = c.toKey ∧ x.1.2.Allows c := by
  intro run
  obtain ⟨hkeys, hpairs⟩ := (apart_ofDialects dialects).run calls
  refine ⟨Call.length_each _ calls _, hpairs, ?_⟩
  intro x hx key hkey
  obtain ⟨c, hc, hallows, -⟩ := hkeys x hx key hkey
  exact ⟨c, hc, hallows⟩

/-- Two generators, three pools of one name, and a sequence that one dialect refuses. -/
theorem run_keys_distinct_orders :
    let calls := [(0, .orders), (1, .orderPairs), (0, .orders), (1, .orderPairs), (0, .orderPairs),
      (1, { Sequence.orders with poolSize := 1001, poolSize_pos := by decide })]
    let run := (ofDialects #v[{}, { surface := .postgreSql }] ({} : Memory)).run Memory.source calls
    issued run.values = [3, 7, 4, 8, 9].map Counter.toKey ∧
      (calls.zip run.values).Pairwise fun x y =>
        x.1.2.name = y.1.2.name → ∀ key, x.2 = .ok key → y.2 ≠ .ok key := by
  intro calls run
  exact ⟨by decide +kernel, (run_keys_distinct _ calls).2.1⟩

end Fleet

end ShardKeys
