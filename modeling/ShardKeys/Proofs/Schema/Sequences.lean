import Mathlib.Data.List.Induction
import Mathlib.Data.List.Nodup
import ShardKeys.Proofs.Exclusion.Canonical
import ShardKeys.Proofs.Schema.Layout
import ShardKeys.Schema.Basic

/-! # Declaring sequences

A schema holds the first sequence of each name that was declared. Another one of the same name is
either the same sequence or refused, so all that was declared is accepted just if no two sequences
of one name differ. Sets of excluded counters have one form, so two sequences differ just if they
would not draw the same counters.
-/

namespace ShardKeys

/-! ## Lists by keys -/

section FirstOfEachKey

variable {α β : Type} [DecidableEq β] (key : α → β)

/-- The entries of a list whose key is the key of no entry before them. -/
def firstOfEach (xs : List α) : List α :=
  xs.eraseDupsBy fun a b => key a == key b

theorem firstOfEach_nil : firstOfEach key [] = [] := rfl

theorem firstOfEach_cons (x : α) (xs : List α) :
    firstOfEach key (x :: xs) = x :: firstOfEach key (xs.filter fun a => key a ≠ key x) := by
  simp [firstOfEach, List.eraseDupsBy_cons]

theorem firstOfEach_concat (xs : List α) (x : α) :
    firstOfEach key (xs ++ [x]) =
      if key x ∈ xs.map key then firstOfEach key xs else firstOfEach key xs ++ [x] := by
  induction hlength : xs.length using Nat.strongRecOn generalizing xs with
  | ind length ih =>
      cases xs with
      | nil => simp [firstOfEach_nil, firstOfEach_cons]
      | cons a rest =>
          rw [List.cons_append, firstOfEach_cons, firstOfEach_cons, List.filter_append]
          by_cases hx : key x = key a
          · simp [hx]
          · have hshort := List.length_filter_le (fun b => key b ≠ key a) rest
            have hrest :=
              ih _ (by rw [← hlength, List.length_cons]; omega) (rest.filter fun b => key b ≠ key a)
              rfl
            have hmem :
                key x ∈ (rest.filter fun b => key b ≠ key a).map key ↔
                  key x ∈ (a :: rest).map key := by
              simp only [List.mem_map, List.mem_filter, List.map_cons, List.mem_cons]
              grind
            rw [List.filter_cons_of_pos (by simpa using hx), List.filter_nil, hrest]
            simp only [hmem]
            split <;> rfl

theorem mem_of_mem_firstOfEach {a : α} {xs : List α} (h : a ∈ firstOfEach key xs) : a ∈ xs := by
  induction xs using List.reverseRecOn with
  | nil => exact h
  | append_singleton xs x ih =>
      rw [firstOfEach_concat] at h
      split at h
      · exact List.mem_append_left _ (ih h)
      · exact List.mem_append.mpr ((List.mem_append.mp h).imp_left ih)

theorem map_firstOfEach (xs : List α) : (firstOfEach key xs).map key = (xs.map key).eraseDups := by
  induction xs using List.reverseRecOn with
  | nil => rfl
  | append_singleton xs x ih =>
      rw [firstOfEach_concat, List.map_append, List.map_singleton, eraseDups_concat]
      split <;> simp [ih]

theorem mem_map_firstOfEach_iff {b : β} {xs : List α} :
    b ∈ (firstOfEach key xs).map key ↔ b ∈ xs.map key := by
  rw [map_firstOfEach, List.mem_eraseDups]

theorem firstOfEach_of_nodup {xs : List α} (h : (xs.map key).Nodup) : firstOfEach key xs = xs := by
  induction xs using List.reverseRecOn with
  | nil => rfl
  | append_singleton xs x ih =>
      rw [List.map_append, List.map_singleton, ← List.concat_eq_append, List.nodup_concat] at h
      rw [firstOfEach_concat, if_neg h.1, ih h.2]

end FirstOfEachKey

/-- The sequences start alike, are drawn in blocks of one size and exclude the same counters. -/
def Sequence.Agrees (a b : Sequence) : Prop :=
  a.start = b.start ∧ a.poolSize = b.poolSize ∧ ∀ c, a.excluded.excludes c ↔ b.excluded.excludes c

theorem Sequence.eq_iff_agrees {a b : Sequence} : a = b ↔ a.name = b.name ∧ a.Agrees b := by
  constructor
  · rintro rfl
    exact ⟨rfl, rfl, rfl, fun _ => Iff.rfl⟩
  · rintro ⟨hname, hstart, hpool, hexcluded⟩
    have hexcluded := ExclusionSet.eq_of_excludes hexcluded
    cases a
    cases b
    simp_all

namespace Schema

variable {g : Schema} {tables : List Table} {given more : List Sequence} {a s : Sequence}

/-! ## Declaring one sequence -/

theorem find?_name_eq_some_iff :
    g.sequences.find? (·.name = s.name) = some a ↔ a ∈ g.sequences ∧ a.name = s.name := by
  constructor
  · intro h
    exact ⟨List.mem_of_find?_eq_some h, by simpa using List.find?_some h⟩
  · rintro ⟨ha, hname⟩
    cases h : g.sequences.find? (·.name = s.name) with
    | none => simpa [hname] using List.find?_eq_none.mp h a ha
    | some b =>
        have hb : b.name = s.name := by simpa using List.find?_some h
        rw [List.inj_on_of_nodup_map g.distinct (List.mem_of_find?_eq_some h) ha
          (hb.trans hname.symm)]

theorem declare_of_mem (h : s ∈ g.sequences) : g.declare s = .ok g := by
  have hfind : g.sequences.find? (·.name = s.name) = some s := find?_name_eq_some_iff.mpr ⟨h, rfl⟩
  unfold declare
  split
  · next other hother =>
      obtain rfl := Option.some.inj (hfind.symm.trans hother)
      simp
  · next hnone => simp [hfind] at hnone

theorem declare_of_conflict (ha : a ∈ g.sequences) (hname : a.name = s.name) (hne : a ≠ s) :
    g.declare s = .error (.declaredTwice a s) := by
  have hfind : g.sequences.find? (·.name = s.name) = some a :=
    find?_name_eq_some_iff.mpr ⟨ha, hname⟩
  unfold declare
  split
  · next other hother =>
      obtain rfl := Option.some.inj (hfind.symm.trans hother)
      simp [hne]
  · next hnone => simp [hfind] at hnone

theorem declare_of_new (h : s.name ∉ g.sequences.map (·.name)) :
    ∃ g', g.declare s = .ok g' ∧ g'.tables = g.tables ∧ g'.sequences = g.sequences ++ [s] := by
  have hfind : g.sequences.find? (·.name = s.name) = none := by simpa using h
  unfold declare
  split
  · next other hother => simp [hfind] at hother
  · exact ⟨_, rfl, rfl, rfl⟩

/-! ## Declaring many -/

/-- No two sequences of one name differ. -/
def Agreed (given : List Sequence) : Prop :=
  ∀ a ∈ given, ∀ b ∈ given, a.name = b.name → a = b

theorem agreed_concat (h : Agreed given) (hs : ∀ a ∈ given, a.name = s.name → a = s) :
    Agreed (given ++ [s]) := by
  unfold Agreed
  simp only [List.mem_append, List.mem_singleton]
  rintro a (ha | rfl) b (hb | rfl) hname
  · exact h a ha b hb hname
  · exact hs a ha hname
  · exact (hs b hb hname.symm).symm
  · rfl

/-- What a schema is after sequences were declared: no two that were given differ under one name,
the first of each name are there, and the tables are the same. -/
structure Declared (tables : List Table) (given : List Sequence) (g : Schema) : Prop where
  agreed : Agreed given
  sequences_eq : g.sequences = firstOfEach (·.name) given
  tables_eq : g.tables = tables

namespace Declared

theorem of_schema (g : Schema) : Declared g.tables g.sequences g where
  agreed := fun _ ha _ hb hname => List.inj_on_of_nodup_map g.distinct ha hb hname
  sequences_eq := (firstOfEach_of_nodup _ g.distinct).symm
  tables_eq := rfl

theorem mem_of_mem_sequences (h : Declared tables given g) (ha : a ∈ g.sequences) : a ∈ given := by
  rw [h.sequences_eq] at ha
  exact mem_of_mem_firstOfEach _ ha

/-- One more sequence is declared, or there is another one of its name. -/
theorem declare (h : Declared tables given g) (s : Sequence) :
    (∃ g', g.declare s = .ok g' ∧ Declared tables (given ++ [s]) g') ∨
      ∃ a ∈ given, a.name = s.name ∧ a ≠ s ∧ g.declare s = .error (.declaredTwice a s) := by
  by_cases hname : s.name ∈ g.sequences.map (·.name)
  · have hname' : s.name ∈ given.map (·.name) := by
      rwa [h.sequences_eq, mem_map_firstOfEach_iff] at hname
    obtain ⟨a, ha, hsame⟩ := List.mem_map.mp hname
    have hgiven := h.mem_of_mem_sequences ha
    by_cases heq : a = s
    · subst heq
      refine .inl ⟨g, declare_of_mem ha, agreed_concat h.agreed ?_, ?_, h.tables_eq⟩
      · exact fun b hb hb' => h.agreed b hb a hgiven hb'
      · rw [h.sequences_eq, firstOfEach_concat, if_pos hname']
    · exact .inr ⟨a, hgiven, hsame, heq, declare_of_conflict ha hsame heq⟩
  · have hname' : s.name ∉ given.map (·.name) := by
      rwa [h.sequences_eq, mem_map_firstOfEach_iff] at hname
    obtain ⟨g', hdeclare, htables, hsequences⟩ := declare_of_new hname
    refine .inl ⟨g', hdeclare, agreed_concat h.agreed ?_, ?_, htables.trans h.tables_eq⟩
    · exact fun b hb hb' => absurd (List.mem_map.mpr ⟨b, hb, hb'⟩) hname'
    · rw [hsequences, h.sequences_eq, firstOfEach_concat, if_neg hname']

theorem declareAll (h : Declared tables given g) (more : List Sequence) :
    (∃ g', g.declareAll more = .ok g' ∧ Declared tables (given ++ more) g') ∨
      ∃ a ∈ given ++ more, ∃ b ∈ given ++ more,
        a.name = b.name ∧ a ≠ b ∧ g.declareAll more = .error (.declaredTwice a b) := by
  induction more generalizing given g with
  | nil => exact .inl ⟨g, rfl, by simpa using h⟩
  | cons s more ih =>
      have hstep : g.declareAll (s :: more) = g.declare s >>= fun g' => g'.declareAll more := rfl
      have hlist : given ++ s :: more = given ++ [s] ++ more := by simp
      rcases h.declare s with ⟨g', hok, hdeclared⟩ | ⟨a, ha, hname, hne, herror⟩
      · rw [hstep, hok, hlist]
        exact ih hdeclared
      · refine .inr ⟨a, List.mem_append_left _ ha, s, by simp, hname, hne, ?_⟩
        rw [hstep, herror]
        rfl

end Declared

theorem foldlM_declareAll (g : Schema) (calls : List (List Sequence)) :
    calls.foldlM declareAll g = g.declareAll calls.flatten := by
  induction calls generalizing g with
  | nil => rfl
  | cons call calls ih =>
      have hsplit : g.declareAll (call ++ calls.flatten) =
          g.declareAll call >>= fun g' => g'.declareAll calls.flatten := List.foldlM_append
      rw [List.foldlM_cons, List.flatten_cons, hsplit]
      exact bind_congr ih

/-- Sequences may be declared in any number of calls. All calls succeed just if no two of the
sequences that were given differ under one name; what the schema held before counts as given. Then
the schema holds the first sequence of each name in the order in which they were given, and its
tables, keys and columns are the same. Otherwise two sequences that differ under one name are
told. -/
theorem declareAll_keeps_firsts (g : Schema) (calls : List (List Sequence)) :
    let given := g.sequences ++ calls.flatten
    ((∃ g', calls.foldlM declareAll g = .ok g') ↔
      ∀ a ∈ given, ∀ b ∈ given, a.name = b.name → a.Agrees b) ∧
      (∀ g', calls.foldlM declareAll g = .ok g' →
        g'.sequences = firstOfEach (·.name) given ∧ (g'.sequences.map (·.name)).Nodup ∧
        g'.tables = g.tables ∧
          ∀ t, g'.key t = g.key t ∧ g'.columns t = g.columns t) ∧
      ∀ fault, calls.foldlM declareAll g = .error fault →
        ∃ a ∈ given, ∃ b ∈ given, a.name = b.name ∧ ¬a.Agrees b ∧ fault = .declaredTwice a b := by
  intro given
  have hagrees {a b : Sequence} (hname : a.name = b.name) : a.Agrees b ↔ a = b := by
    rw [Sequence.eq_iff_agrees, and_iff_right hname]
  rw [foldlM_declareAll]
  rcases (Declared.of_schema g).declareAll calls.flatten with
    ⟨g', hok, h⟩ | ⟨a, ha, b, hb, hname, hne, herror⟩
  · refine ⟨⟨fun _ a ha b hb hname => ?agrees, fun _ => ⟨g', hok⟩⟩, fun g'' hg'' => ?holds,
      fun fault hfault => ?_⟩
    case agrees => exact (hagrees hname).mpr (h.agreed a ha b hb hname)
    case holds =>
      obtain rfl := Except.ok.inj (hok.symm.trans hg'')
      refine ⟨h.sequences_eq, ?_, h.tables_eq, fun t => ?_⟩
      · rw [h.sequences_eq, map_firstOfEach]
        exact nodup_eraseDups _
      · simp [key, columns, layout, h.tables_eq]
    · simp [hok] at hfault
  · refine ⟨⟨?_, fun hall => ?_⟩, ?_, ?_⟩
    · rintro ⟨g', hg'⟩
      simp [herror] at hg'
    · exact absurd ((hagrees hname).mp (hall a ha b hb hname)) hne
    · intro g' hg'
      simp [herror] at hg'
    · intro fault hfault
      obtain rfl := Except.error.inj (herror.symm.trans hfault)
      exact ⟨a, ha, b, hb, hname, (hagrees hname).not.mpr hne, rfl⟩

end Schema

end ShardKeys
