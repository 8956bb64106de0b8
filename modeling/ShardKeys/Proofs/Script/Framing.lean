import ShardKeys.Proofs.Fallible
import ShardKeys.Script.Style

/-! # Batches lose nothing

The batches of a script, put together again, are its statements in order. Around them stand the
markers, and behind them what follows a change of the schema.
-/

namespace ShardKeys

namespace Framing

variable {f : Framing} {mode : ScriptMode}

theorem flatten_chunks {α : Type} (size : Nat) (xs : List α) : (chunks size xs).flatten = xs := by
  fun_induction chunks size xs with
  | case1 => rfl
  | case2 a rest ih => rw [List.flatten_cons, ih, List.cons_append, List.take_append_drop]

theorem flatten_batches (f : Framing) (statements : List String) :
    (f.batches statements).flatten = statements := by
  cases statements with
  | nil => rfl
  | cons first rest => exact flatten_chunks _ _

/-- The lines for some batches, each between its markers, or bare where nothing is framed. -/
def layOut (f : Framing) (batches : List (List String)) : List String :=
  if f.framed then batches.flatMap frameBatch else batches.flatten

/-- Other scripts than updates consist of their batches and what follows these. -/
theorem lines_script (hmode : mode ≠ .update) (statements : List String) :
    (f.script mode statements).lines = f.layOut (f.batches statements) ++ f.after := by
  cases h : f.framed <;> simp [script, hmode, layOut, h, flatten_batches]

end Framing

/-- Every dialect can drop whatever there is. -/
theorem Dialect.statements_drop (d : Dialect) (g : Schema) (objects : List SchemaObject) :
    d.statements g (objects.map .drop) = .ok (objects.map d.dropStatement) := by
  refine mapM_eq_ok_iff.mpr ?_
  rw [List.forall₂_map_left_iff, List.forall₂_map_right_iff, List.forall₂_same]
  exact fun _ _ => rfl

namespace ScriptStyle

variable (style : ScriptStyle) (statements : List String)

theorem planScript_eq_ok_iff {style : ScriptStyle} {g : Schema} {mode : ScriptMode}
    {plan : List Change}
    {script : Script} :
    style.planScript g mode plan = .ok script ↔
      ∃ statements, style.dialect.statements g plan = .ok statements ∧
        script = style.frame mode statements := by
  unfold planScript
  cases style.dialect.statements g plan <;> simp [Except.map, eq_comm]

theorem planScript_drop (g : Schema) (mode : ScriptMode) (objects : List SchemaObject) :
    style.planScript g mode (objects.map .drop) =
      .ok (style.frame mode (objects.map style.dialect.dropStatement)) :=
  planScript_eq_ok_iff.mpr ⟨_, style.dialect.statements_drop g objects, rfl⟩

theorem lines_frame_create :
    (style.frame .create statements).lines =
      style.framing.layOut (style.framing.batches statements) ++ style.framing.after :=
  Framing.lines_script (by decide) statements

theorem lines_frame_drop :
    (style.frame .drop statements).lines =
      style.framing.layOut (style.framing.batches statements) :=
  (Framing.lines_script (by decide) statements).trans (List.append_nil _)

end ScriptStyle

end ShardKeys
