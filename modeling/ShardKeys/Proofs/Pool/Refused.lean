import ShardKeys.Proofs.Pool.Blocks

/-! # What a refused block leaves behind

A sequence that the source in memory refuses a block stays where it stands. A sequence that was
never used stands nowhere yet, and is left where the refused request says that it begins: for the
requests that follow, that is its origin, whatever origin they name.
-/

namespace ShardKeys

/-- The answers of a source to requests made one after the other. -/
def Source.answers {σ : Type} (src : Source σ) : σ → List FetchRequest → List Answer
  | _, [] => []
  | w, request :: later => (src.fetch w request).1 :: src.answers (src.fetch w request).2 later

/-- The request as it would be with the origin of another request for its sequence. -/
def FetchRequest.startingWith (request first : FetchRequest) : FetchRequest :=
  { request with
    origin := if request.sequence = first.sequence then first.origin else request.origin }

/-- A request for one counter, wherever the sequence stands. -/
def FetchRequest.single (name : SequenceName) (origin : Counter) : FetchRequest where
  sequence := name
  origin := origin
  least := 0
  count := 1

namespace Memory

variable {m m' : Memory} {request : FetchRequest} {fault : FetchFault}

/-! ## Answers -/

theorem standing_moveTo (m : Memory) (name : SequenceName) (c : Counter) (request : FetchRequest) :
    (m.moveTo name c).standing request =
      if request.sequence = name then c else m.standing request := by
  unfold standing
  rw [position?_moveTo]
  split <;> rfl

theorem fetch_congr {origin : Counter}
    (h : m.standing request = m'.standing { request with origin := origin }) :
    (m.fetch request).1 = (m'.fetch { request with origin := origin }).1 ∧
      ∃ c, (m.fetch request).2 = m.moveTo request.sequence c ∧
        (m'.fetch { request with origin := origin }).2 = m'.moveTo request.sequence c := by
  have hfirst : m.first request = m'.first { request with origin := origin } := by
    simp only [first, h]
  cases hadvance : (m.first request).advance? request.count.toNat with
  | none =>
      have hadvance' := hfirst ▸ hadvance
      rw [fetch_of_advance?_none hadvance, fetch_of_advance?_none hadvance', h]
      exact ⟨rfl, _, rfl, rfl⟩
  | some next =>
      have hadvance' := hfirst ▸ hadvance
      rw [fetch_of_advance?_some hadvance, fetch_of_advance?_some hadvance', hfirst]
      exact ⟨rfl, next, rfl, rfl⟩

/-- Two memories answer alike if every request finds its sequence standing alike, although it may
name another origin in one of them. -/
theorem answers_of_standing (origin : FetchRequest → Counter)
    (h : ∀ request, m.standing request = m'.standing { request with origin := origin request })
    (requests : List FetchRequest) :
    source.answers m requests =
      source.answers m' (requests.map fun request =>
        { request with origin := origin request }) := by
  induction requests generalizing m m' with
  | nil => rfl
  | cons request later ih =>
      obtain ⟨hanswer, c, hmove, hmove'⟩ := fetch_congr (h request)
      rw [List.map_cons, Source.answers, Source.answers]
      refine congrArg₂ List.cons hanswer (ih fun other => ?_)
      simp only [source, hmove, hmove', standing_moveTo, h other]

theorem answers_congr (h : ∀ name, m.position? name = m'.position? name)
    (requests : List FetchRequest) :
    source.answers m requests = source.answers m' requests := by
  have hstanding : ∀ request, m.standing request = m'.standing request := by
    intro request
    rw [standing, h, standing]
  simpa using answers_of_standing FetchRequest.origin hstanding requests

/-! ## A failure -/

theorem fetch_of_failed (h : (m.fetch request).1 = .failed fault) :
    (m.fetch request).2 = m.moveTo request.sequence (m.standing request) := by
  rcases fetch_cases m request with ⟨hfetch, -⟩ | ⟨first, next, hfetch, -, -⟩
  · rw [hfetch]
  · rw [hfetch] at h
    simp at h

/-- After a failure the requests for the sequence are answered as if they named the origin of the
request that failed. -/
theorem answers_of_failed (h : (m.fetch request).1 = .failed fault) (requests : List FetchRequest) :
    source.answers (m.fetch request).2 requests =
      source.answers m (requests.map (·.startingWith request)) := by
  refine answers_of_standing _ (fun other => ?_) requests
  rw [fetch_of_failed h, standing_moveTo]
  simp only [standing]
  split
  · next hname => rw [hname]
  · rfl

theorem position?_of_failed_iff (h : (m.fetch request).1 = .failed fault) :
    (∀ name, (m.fetch request).2.position? name = m.position? name) ↔
      (m.position? request.sequence).isSome := by
  simp only [fetch_of_failed h, position?_moveTo]
  constructor
  · intro hsame
    rw [← hsame request.sequence, if_pos rfl]
    rfl
  · intro hused name
    obtain ⟨c, hc⟩ := Option.isSome_iff_exists.mp hused
    split
    · next hname => rw [hname, standing, hc, Option.getD_some]
    · rfl

/-- The first counter of a sequence is its origin; the last counter is not handed out. -/
theorem fetch_single_of_unused {name : SequenceName} (hunused : m.position? name = none)
    (origin : Counter) :
    (m.fetch (.single name origin)).1 =
      if origin = Counter.last then .failed .exhausted else .block [origin] := by
  have hmax : max (m.standing (.single name origin)).toNat (0 : Counter).toNat = origin.toNat := by
    rw [standing, FetchRequest.single, hunused]
    exact Nat.max_zero _
  have hone : (1 : UInt32).toNat = 1 := rfl
  rcases fetch_cases m (.single name origin) with
    ⟨hfetch, hfull⟩ | ⟨first, next, hfetch, hfirst, hnext⟩
  · have horigin : origin = Counter.last := by
      have hle := UInt64.le_iff_toNat_le.mp (Counter.le_last origin)
      rw [FetchRequest.single] at hmax hfull
      rw [hmax, hone] at hfull
      rw [← UInt64.toNat_inj]
      omega
    rw [hfetch, if_pos horigin]
  · obtain rfl : first = origin := UInt64.toNat_inj.mp (hfirst.trans hmax)
    have horigin : first ≠ Counter.last := by
      intro heq
      have hle := UInt64.le_iff_toNat_le.mp (Counter.le_last next)
      rw [hnext, heq, FetchRequest.single, hone] at hle
      omega
    rw [hfetch, if_neg horigin]
    simp [Counter.block, FetchRequest.single]

/-- Where the sequence was never used, a request that names another origin tells whether the failure
came before it. -/
theorem exists_answers_ne_of_failed (h : (m.fetch request).1 = .failed fault)
    (hunused : m.position? request.sequence = none) :
    ∃ requests, source.answers (m.fetch request).2 requests ≠ source.answers m requests := by
  obtain ⟨origin, hne⟩ : ∃ origin : Counter, origin ≠ request.origin := by
    by_cases hone : request.origin = 1
    · exact ⟨2, by rw [hone]; decide⟩
    · exact ⟨1, Ne.symm hone⟩
  have hstart : (FetchRequest.single request.sequence origin).startingWith request =
      .single request.sequence request.origin := by
    simp [FetchRequest.startingWith, FetchRequest.single]
  refine ⟨[.single request.sequence origin], fun hsame => ?_⟩
  rw [answers_of_failed h, List.map_singleton, hstart] at hsame
  have hanswer : (m.fetch (.single request.sequence request.origin)).1 =
      (m.fetch (.single request.sequence origin)).1 := (List.cons.inj hsame).1
  rw [fetch_single_of_unused hunused, fetch_single_of_unused hunused] at hanswer
  grind

/-- A request that fails leaves its sequence where it stood, or where the request says that it
begins, and leaves the other sequences alone. All later requests are answered as if those for its
sequence named its origin. The positions are those before the request just if the sequence had been
used before; and so are the answers to all later requests. -/
theorem failed_fetch_traceless_iff (h : (m.fetch request).1 = .failed fault) :
    let left := (m.fetch request).2
    (∀ name, left.position? name =
        if name = request.sequence then some (m.standing request) else m.position? name) ∧
      (∀ requests, source.answers left requests =
        source.answers m (requests.map (·.startingWith request))) ∧
      ((∀ name, left.position? name = m.position? name) ↔ (m.position? request.sequence).isSome) ∧
      ((∀ requests, source.answers left requests = source.answers m requests) ↔
        (m.position? request.sequence).isSome) := by
  intro left
  refine ⟨fun name => ?positions, answers_of_failed h, position?_of_failed_iff h, ?distinguished,
    ?used⟩
  case positions => rw [← position?_moveTo, ← fetch_of_failed h]
  case distinguished =>
    intro hsame
    by_contra hunused
    obtain ⟨requests, hne⟩ :=
      exists_answers_ne_of_failed h (Option.not_isSome_iff_eq_none.mp hunused)
    exact hne (hsame requests)
  case used =>
    intro hused requests
    exact answers_congr ((position?_of_failed_iff h).mpr hused) requests

/-- Fifty counters of a sequence that begins at a hundred, asked for too close to the last
counter. -/
def lateRequest : FetchRequest where
  sequence := ⟨none, "orders"⟩
  origin := 100
  least := 0xFFFFFFFFFFFFFFF1
  count := 50

theorem failed_fetch_traceless_iff_used :
    let m := (({} : Memory).fetch (.single lateRequest.sequence 7)).2
    (m.fetch lateRequest).1 = .failed .exhausted ∧
      (∀ name, (m.fetch lateRequest).2.position? name = m.position? name) ∧
      ∀ requests, source.answers (m.fetch lateRequest).2 requests = source.answers m requests := by
  intro m
  have hfailed : (m.fetch lateRequest).1 = .failed .exhausted := by decide
  have hused : (m.position? lateRequest.sequence).isSome := by decide
  obtain ⟨-, -, hpositions, hanswers⟩ := failed_fetch_traceless_iff hfailed
  exact ⟨hfailed, hpositions.mpr hused, hanswers.mpr hused⟩

/-- A sequence that was never used has a position after a request that failed, and a request that
begins at one is served from a hundred on. -/
theorem failed_fetch_of_unused_traced :
    let left := (({} : Memory).fetch lateRequest).2
    (({} : Memory).fetch lateRequest).1 = .failed .exhausted ∧
      ({} : Memory).position? lateRequest.sequence = none ∧
      left.position? lateRequest.sequence = some 100 ∧
      source.answers {} [.single lateRequest.sequence 1] = [.block [1]] ∧
      source.answers left [.single lateRequest.sequence 1] = [.block [100]] := by
  decide

end Memory

end ShardKeys
