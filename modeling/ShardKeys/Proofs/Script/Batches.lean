import ShardKeys.Proofs.Script.Framing

/-! # The batches of a script

With a limit, all batches of a script are full but the last one, which holds one statement at least.
This fixes the batches, and with them their number.
-/

namespace ShardKeys

/-! ## Pieces of one size -/

section Pieces

variable {α : Type} {size : Nat} {batch : List α} {batches : List (List α)}

/-- All batches but the last one hold `size` statements, and the last one holds as many at most, but
some. -/
def Filled (size : Nat) (batches : List (List α)) : Prop :=
  (∀ batch ∈ batches.dropLast, batch.length = size) ∧
    ∀ batch ∈ batches.getLast?, 0 < batch.length ∧ batch.length ≤ size

theorem filled_singleton : Filled size [batch] ↔ 0 < batch.length ∧ batch.length ≤ size := by
  simp [Filled]

theorem filled_cons {next : List α} :
    Filled size (batch :: next :: batches) ↔
      batch.length = size ∧ Filled size (next :: batches) := by
  simp [Filled, and_assoc]

theorem Filled.ne_nil (h : Filled size batches) (hsize : 0 < size) :
    ∀ batch ∈ batches, batch ≠ [] := by
  induction batches with
  | nil => simp
  | cons batch rest ih =>
      cases rest with
      | nil => simpa [List.length_pos_iff] using (filled_singleton.mp h).1
      | cons next rest =>
          obtain ⟨hfull, hrest⟩ := filled_cons.mp h
          refine List.forall_mem_cons.mpr ⟨?_, ih hrest⟩
          rw [← List.length_pos_iff, hfull]
          exact hsize

namespace Framing

theorem chunks_of_length_le {xs : List α} (hpos : 0 < xs.length) (hle : xs.length ≤ size) :
    chunks size xs = [xs] := by
  cases xs with
  | nil => simp at hpos
  | cons a rest =>
      have hrest : rest.length ≤ size - 1 := by
        simp only [List.length_cons] at hle
        omega
      rw [chunks, List.take_of_length_le hrest, List.drop_of_length_le hrest, chunks]

theorem chunks_append (hsize : 0 < size) (hfull : batch.length = size) (rest : List α) :
    chunks size (batch ++ rest) = batch :: chunks size rest := by
  subst hfull
  cases batch with
  | nil => simp at hsize
  | cons a batch => simp [chunks]

theorem filled_chunks (hsize : 0 < size) (xs : List α) : Filled size (chunks size xs) := by
  fun_induction chunks size xs with
  | case1 => simp [Filled]
  | case2 a rest ih =>
      cases hnext : chunks size (rest.drop (size - 1)) with
      | nil =>
          rw [filled_singleton, List.length_cons, List.length_take]
          omega
      | cons next more =>
          have hlong : size - 1 < rest.length := by
            by_contra hshort
            rw [List.drop_of_length_le (Nat.le_of_not_lt hshort), chunks] at hnext
            simp at hnext
          refine filled_cons.mpr ⟨?_, hnext ▸ ih⟩
          rw [List.length_cons, List.length_take]
          omega

theorem chunks_flatten (h : Filled size batches) (hsize : 0 < size) :
    chunks size batches.flatten = batches := by
  induction batches with
  | nil => simp [chunks]
  | cons batch rest ih =>
      cases rest with
      | nil =>
          obtain ⟨hpos, hle⟩ := filled_singleton.mp h
          simpa using chunks_of_length_le hpos hle
      | cons next rest =>
          obtain ⟨hfull, hrest⟩ := filled_cons.mp h
          rw [List.flatten_cons, chunks_append hsize hfull, ih hrest]

end Framing

/-- The number of filled batches is that of their statements by their size, rounded up. -/
theorem Filled.length_eq (h : Filled size batches) (hsize : 0 < size) :
    batches.length = (batches.flatten.length + size - 1) / size := by
  induction batches with
  | nil =>
      rw [List.flatten_nil, List.length_nil, List.length_nil]
      exact (Nat.div_eq_of_lt (by omega)).symm
  | cons batch rest ih =>
      cases rest with
      | nil =>
          obtain ⟨hpos, hle⟩ := filled_singleton.mp h
          rw [List.flatten_singleton, List.length_singleton]
          exact (Nat.div_eq_of_lt_le (by omega) (by omega)).symm
      | cons next rest =>
          obtain ⟨hfull, hrest⟩ := filled_cons.mp h
          have hshift : size + (next :: rest).flatten.length + size - 1 =
              (next :: rest).flatten.length + size - 1 + size := by omega
          rw [List.length_cons, ih hrest, List.flatten_cons (l := batch), List.length_append, hfull,
            hshift, Nat.add_div_right _ hsize]

end Pieces

/-! ## Scripts -/

namespace Framing

variable {f : Framing} {mode : ScriptMode} {statements : List String} {batches : List (List String)}
  {script : Script}

/-- What the batches of some statements have to be. The only batch without a statement is that of a
script without any. -/
structure Batched (f : Framing) (statements : List String) (batches : List (List String)) :
    Prop where
  flatten : batches.flatten = statements
  nonempty : statements ≠ [] → ∀ batch ∈ batches, batch ≠ []
  empty : statements = [] → batches = [[]]
  full : ∀ limit ∈ f.limit, ∀ batch ∈ batches.dropLast, batch.length = limit
  last : ∀ limit ∈ f.limit, ∀ batch ∈ batches.getLast?, batch.length ≤ limit
  single : f.limit = none → batches.length = 1

/-- What the script of some statements has to be. -/
inductive Frames (f : Framing) : ScriptMode → List String → Script → Prop
  | idle : Frames f .update [] {}
  | bare {mode : ScriptMode} {statements : List String} (hsome : mode = .update → statements ≠ [])
      (hbare : f.framed = false) : Frames f mode statements { lines := statements ++ f.after }
  | framed {mode : ScriptMode} {statements : List String} {batches : List (List String)}
      (hsome : mode = .update → statements ≠ []) (hframed : f.framed = true)
      (hbatches : f.Batched statements batches) :
      Frames f mode statements
        { lines :=
            (batches.flatMap fun batch => "START BATCH DDL" :: (batch ++ ["RUN BATCH"])) ++ f.after
          events := [.scriptFramed mode statements.length batches.length] }

theorem batchSize_pos (f : Framing) (n : Nat) : 0 < f.batchSize n := by
  unfold batchSize
  cases f.limit with
  | none => exact Nat.le_max_right n 1
  | some limit => exact limit.property

/-- Of the pieces that the framing cuts, the batches of a script are those that hold its
statements. -/
theorem batches_eq_iff (h : statements ≠ []) :
    f.batches statements = batches ↔
      batches.flatten = statements ∧ Filled (f.batchSize statements.length) batches := by
  have hsize := f.batchSize_pos statements.length
  rw [Framing.batches, if_neg (by simpa using h)]
  constructor
  · rintro rfl
    exact ⟨flatten_chunks _ _, filled_chunks hsize _⟩
  · rintro ⟨hflatten, hfilled⟩
    have hchunks := chunks_flatten hfilled hsize
    rwa [hflatten] at hchunks

theorem Batched.filled (h : f.Batched statements batches) (hsome : statements ≠ []) :
    Filled (f.batchSize statements.length) batches := by
  unfold batchSize
  cases hlimit : f.limit with
  | none =>
      obtain ⟨batch, rfl⟩ := List.length_eq_one_iff.mp (h.single hlimit)
      have hbatch : batch = statements := by simpa using h.flatten
      rw [filled_singleton, hbatch]
      exact ⟨List.length_pos_iff.mpr hsome, Nat.le_max_left _ _⟩
  | some limit =>
      refine ⟨h.full limit hlimit, fun batch hbatch => ⟨?_, h.last limit hlimit batch hbatch⟩⟩
      exact List.length_pos_iff.mpr (h.nonempty hsome batch (List.mem_of_getLast? hbatch))

theorem batched_of_filled (hsome : statements ≠ []) (hflatten : batches.flatten = statements)
    (h : Filled (f.batchSize statements.length) batches) : f.Batched statements batches where
  flatten := hflatten
  nonempty _ := h.ne_nil (f.batchSize_pos _)
  empty hnone := absurd hnone hsome
  full limit hlimit := by
    rw [batchSize, hlimit] at h
    exact h.1
  last limit hlimit batch hbatch := by
    rw [batchSize, hlimit] at h
    exact (h.2 batch hbatch).2
  single hlimit := by
    have hwhole : chunks (f.batchSize statements.length) statements = [statements] := by
      rw [batchSize, hlimit]
      exact chunks_of_length_le (List.length_pos_iff.mpr hsome) (Nat.le_max_left _ _)
    rw [← (batches_eq_iff hsome).mpr ⟨hflatten, h⟩, Framing.batches, if_neg (by simpa using hsome),
      hwhole, List.length_singleton]

theorem batched_iff : f.Batched statements batches ↔ f.batches statements = batches := by
  by_cases hsome : statements = []
  · subst hsome
    constructor
    · exact fun h => (h.empty rfl).symm
    · rintro rfl
      constructor <;> simp [Framing.batches]
  · rw [batches_eq_iff hsome]
    constructor
    · exact fun h => ⟨h.flatten, h.filled hsome⟩
    · exact fun h => batched_of_filled hsome h.1 h.2

theorem batchCount_eq (f : Framing) (statements : List String) :
    f.batchCount statements.length = (f.batches statements).length := by
  by_cases hsome : statements = []
  · subst hsome
    have hsize := f.batchSize_pos 0
    simp only [batchCount, Framing.batches, List.length_nil, List.isEmpty_nil, if_true,
      List.length_singleton]
    rw [Nat.div_eq_of_lt (by omega)]
    rfl
  · obtain ⟨hflatten, hfilled⟩ := (batches_eq_iff hsome).mp rfl
    have hlength := hfilled.length_eq (f.batchSize_pos _)
    rw [hflatten] at hlength
    have hpos : 0 < (f.batches statements).length := by
      rw [List.length_pos_iff]
      rintro hnil
      rw [hnil] at hflatten
      exact hsome hflatten.symm
    rw [batchCount, ← hlength, Nat.max_eq_left hpos]

theorem script_of_framed (hsome : mode = .update → statements ≠ []) (hframed : f.framed = true) :
    f.script mode statements =
      { lines := (f.batches statements).flatMap frameBatch ++ f.after
        events := [.scriptFramed mode statements.length (f.batches statements).length] } := by
  rw [script, if_neg (by simpa [and_comm] using hsome), if_neg (by simp [hframed]), batchCount_eq]

theorem script_of_bare (hsome : mode = .update → statements ≠ []) (hbare : f.framed = false) :
    f.script mode statements = { lines := statements ++ f.after } := by
  rw [script, if_neg (by simpa [and_comm] using hsome), if_pos (by simp [hbare])]

/-- A script is what it has to be and nothing else. -/
theorem frames_iff : f.Frames mode statements script ↔ f.script mode statements = script := by
  constructor
  · rintro (_ | ⟨hsome, hbare⟩ | ⟨hsome, hframed, hbatches⟩)
    · rfl
    · exact script_of_bare hsome hbare
    · obtain rfl := batched_iff.mp hbatches
      exact script_of_framed hsome hframed
  · rintro rfl
    by_cases hidle : mode = .update ∧ statements = []
    · obtain ⟨rfl, rfl⟩ := hidle
      exact .idle
    · have hsome : mode = .update → statements ≠ [] := fun hmode hnone => hidle ⟨hmode, hnone⟩
      cases hframed : f.framed with
      | false => exact script_of_bare hsome hframed ▸ .bare hsome hframed
      | true => exact script_of_framed hsome hframed ▸ .framed hsome hframed (batched_iff.mpr rfl)

end Framing

namespace ScriptStyle

/-- What a script that drops objects has to be: nothing follows its batches, whatever the framing
says. -/
def Drops (style : ScriptStyle) (objects : List SchemaObject) (script : Script) : Prop :=
  ∃ framed, Framing.Frames { style.framing with after := [] } .drop
      (objects.map style.dialect.dropStatement) framed ∧
    script = { framed with events := .scriptGenerated .drop objects.length :: framed.events }

theorem drops_frame (style : ScriptStyle) (objects : List SchemaObject) :
    style.Drops objects (style.frame .drop (objects.map style.dialect.dropStatement)) := by
  refine ⟨_, Framing.frames_iff.mpr rfl, ?_⟩
  rw [frame, List.length_map]
  rfl

/-- A script loses no statement and repeats none, whatever the framing and the kind of the script,
and a script that drops ends with its batches. -/
theorem script_loses_nothing (style : ScriptStyle) :
    (∀ mode statements script,
        style.framing.script mode statements = script ↔
          style.framing.Frames mode statements script) ∧
      (∀ g : Schema, ∃ script, style.dropScript g = .ok script ∧
        style.Drops g.removalOrder script) ∧
      ∀ (g : Schema) (e : LiveSchema),
        (∃ script, style.dropScriptFor g e = .ok script ∧
          style.Drops (g.removalOrder.filter e.holds) script) ∧
        ∀ script, style.recreateScript g e = .ok script → ∃ drop create,
          style.Drops (g.removalOrder.filter e.holds) drop ∧ style.createScript g = .ok create ∧
            script.lines = drop.lines ++ create.lines := by
  refine ⟨fun _ _ _ => Framing.frames_iff.symm, fun g => ?_, fun g e => ⟨?_, ?_⟩⟩
  · exact ⟨_, planScript_drop .., style.drops_frame _⟩
  · exact ⟨_, planScript_drop .., style.drops_frame _⟩
  · intro script h
    obtain ⟨create, hcreate, h⟩ := bind_eq_ok_iff.mp h
    obtain ⟨drop, hdrop, h⟩ := bind_eq_ok_iff.mp h
    obtain rfl := Except.ok.inj h
    obtain rfl := Except.ok.inj (hdrop.symm.trans (planScript_drop ..))
    exact ⟨_, create, style.drops_frame _, hcreate, rfl⟩

end ScriptStyle

end ShardKeys
