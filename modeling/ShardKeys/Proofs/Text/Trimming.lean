import Mathlib.Data.List.DropRight
import ShardKeys.Text.Blank

/-! # Blanks around a text

A text is its trimmed part between blanks, and blanks at either end make no difference to the
trimmed part. Where a text is cut at separators, its blanks go to the ends of the pieces, so it may
be trimmed before or after the cutting.
-/

namespace ShardKeys.Text

variable {cs before middle after : List Char} {sep : Char}

theorem strip_eq (cs : List Char) : strip cs = (cs.dropWhile isBlank).rdropWhile isBlank := rfl

theorem strip_append_left (h : ∀ c ∈ before, isBlank c) : strip (before ++ cs) = strip cs := by
  rw [strip, List.dropWhile_append_of_pos h, strip]

theorem rdropWhile_append_right (h : ∀ c ∈ after, isBlank c) :
    (cs ++ after).rdropWhile isBlank = cs.rdropWhile isBlank := by
  have hreverse : ∀ c ∈ after.reverse, isBlank c := by simpa using h
  rw [List.rdropWhile, List.reverse_append, List.dropWhile_append_of_pos hreverse, List.rdropWhile]

theorem isBlank_rtakeWhile (cs : List Char) : ∀ c ∈ cs.rtakeWhile isBlank, isBlank c :=
  fun _ hc => List.mem_rtakeWhile_imp hc

theorem rdropWhile_cons_rdropWhile (c : Char) (cs : List Char) :
    (c :: cs.rdropWhile isBlank).rdropWhile isBlank = (c :: cs).rdropWhile isBlank := by
  rw [← rdropWhile_append_right (isBlank_rtakeWhile cs), List.cons_append,
    List.rdropWhile_append_rtakeWhile]

theorem strip_append_right (h : ∀ c ∈ after, isBlank c) : strip (cs ++ after) = strip cs := by
  by_cases hblank : ∀ c ∈ cs, isBlank c
  · rw [strip_append_left hblank, strip_eq_nil_iff.mpr h, strip_eq_nil_iff.mpr hblank]
  · have hrest : ¬(cs.dropWhile isBlank).isEmpty := by
      simpa [List.dropWhile_eq_nil_iff] using hblank
    rw [strip_eq, List.dropWhile_append, if_neg hrest, rdropWhile_append_right h, strip_eq]

theorem strip_rdropWhile (cs : List Char) : strip (cs.rdropWhile isBlank) = strip cs := by
  rw [← strip_append_right (isBlank_rtakeWhile cs), List.rdropWhile_append_rtakeWhile]

/-- A text is its trimmed part between blanks. -/
theorem exists_strip (cs : List Char) :
    ∃ before after, (∀ c ∈ before, isBlank c) ∧ (∀ c ∈ after, isBlank c) ∧
      cs = before ++ strip cs ++ after := by
  refine ⟨cs.takeWhile isBlank, (cs.dropWhile isBlank).rtakeWhile isBlank, ?_, isBlank_rtakeWhile _,
    ?_⟩
  · exact fun c hc => List.mem_takeWhile_imp hc
  · rw [strip_eq, List.append_assoc, List.rdropWhile_append_rtakeWhile,
      List.takeWhile_append_dropWhile]

/-- The blanks around a text make no difference to what is left of it. -/
theorem strip_between (hbefore : ∀ c ∈ before, isBlank c) (hafter : ∀ c ∈ after, isBlank c) :
    strip (before ++ cs ++ after) = strip cs := by
  rw [strip_append_right hafter, strip_append_left hbefore]

@[simp] theorem strip_strip (cs : List Char) : strip (strip cs) = strip cs := by
  obtain ⟨before, after, hbefore, hafter, h⟩ := exists_strip cs
  calc
    strip (strip cs) = strip (before ++ strip cs ++ after) := (strip_between hbefore hafter).symm
    _ = strip cs := by rw [← h]

@[simp] theorem trim_trim (s : String) : trim (trim s) = trim s := by
  simp [← String.toList_inj]

theorem trim_eq_empty_iff {s : String} : trim s = "" ↔ strip s.toList = [] := by
  rw [← String.toList_eq_nil_iff, toList_trim]

theorem strip_eq_self (hfirst : ∀ c ∈ cs.head?, ¬isBlank c)
    (hlast : ∀ c ∈ cs.getLast?, ¬isBlank c) :
    strip cs = cs := by
  have hstart : cs.dropWhile isBlank = cs := by
    cases cs with
    | nil => rfl
    | cons c cs => exact List.dropWhile_cons_of_neg (hfirst c rfl)
  rw [strip_eq, hstart, List.rdropWhile_eq_self_iff]
  exact fun hne => hlast _ (List.getLast_mem_getLast? hne)

theorem not_isBlank_of_head?_strip {c : Char} (h : (strip cs).head? = some c) : ¬isBlank c := by
  obtain ⟨rest, hstrip⟩ := List.head?_eq_some_iff.mp h
  obtain ⟨after, hafter⟩ : strip cs <+: cs.dropWhile isBlank := List.rdropWhile_prefix isBlank _
  have hstart := List.head?_dropWhile_not isBlank cs
  rw [← hafter, hstrip] at hstart
  simpa using hstart

theorem not_isBlank_of_getLast?_strip {c : Char} (h : (strip cs).getLast? = some c) :
    ¬isBlank c := by
  obtain ⟨hne, rfl⟩ := List.mem_getLast?_eq_getLast h
  exact List.rdropWhile_last_not isBlank _ hne

/-- A text between trimmed texts that are not empty has no blanks at its ends. -/
theorem strip_between_trimmed (hbefore : strip before = before) (hafter : strip after = after)
    (hstart : before ≠ []) (hend : after ≠ []) :
    strip (before ++ middle ++ after) = before ++ middle ++ after := by
  refine strip_eq_self ?first ?last
  case first =>
    intro c hc
    rw [List.append_assoc, List.head?_append_of_ne_nil _ hstart, ← hbefore] at hc
    exact not_isBlank_of_head?_strip hc
  case last =>
    intro c hc
    rw [List.getLast?_append_of_ne_nil _ hend, ← hafter] at hc
    exact not_isBlank_of_getLast?_strip hc

theorem count_strip {x : Char} (hx : ¬isBlank x) (cs : List Char) :
    (strip cs).count x = cs.count x := by
  obtain ⟨before, after, hbefore, hafter, h⟩ := exists_strip cs
  have hstart : before.count x = 0 := List.count_eq_zero.mpr fun hmem => hx (hbefore x hmem)
  have hend : after.count x = 0 := List.count_eq_zero.mpr fun hmem => hx (hafter x hmem)
  calc
    (strip cs).count x = (before ++ strip cs ++ after).count x := by
      rw [List.count_append, List.count_append, hstart, hend, Nat.zero_add, Nat.add_zero]
    _ = cs.count x := by rw [← h]

theorem mem_strip_iff {x : Char} (hx : ¬isBlank x) : x ∈ strip cs ↔ x ∈ cs := by
  rw [← List.count_pos_iff, count_strip hx, List.count_pos_iff]

/-! ## Trimming and cutting -/

section Cutting

variable (hsep : ¬isBlank sep)

include hsep

theorem map_strip_splitOn_append_left (h : ∀ c ∈ before, isBlank c) :
    ((before ++ cs).splitOn sep).map strip = (cs.splitOn sep).map strip := by
  induction before with
  | nil => rfl
  | cons b before ih =>
      obtain ⟨hb, hbefore⟩ := List.forall_mem_cons.mp h
      have hne : (b == sep) = false := by
        rw [beq_eq_false_iff_ne]
        rintro rfl
        exact hsep hb
      have hpiece : strip ∘ List.cons b = strip := by
        funext piece
        have hblank : ∀ c ∈ [b], isBlank c := by simpa using hb
        exact strip_append_left hblank
      rw [← ih hbefore, List.cons_append, List.splitOn_cons_eq_if_modifyHead]
      cases hpieces : (before ++ cs).splitOn sep with
      | nil => simp [hne]
      | cons piece rest => simpa [hne] using congrFun hpiece piece

/-- The blanks at the end of a text are at the end of its last piece. -/
theorem map_rdropWhile_splitOn_append_right (h : ∀ c ∈ after, isBlank c) :
    ((cs ++ after).splitOn sep).map (·.rdropWhile isBlank) =
      (cs.splitOn sep).map (·.rdropWhile isBlank) := by
  induction cs with
  | nil =>
      have hfree : sep ∉ after := fun hmem => hsep (h sep hmem)
      simpa [List.splitOn_eq_singleton hfree] using h
  | cons c cs ih =>
      rw [List.cons_append, List.splitOn_cons_eq_if_modifyHead, List.splitOn_cons_eq_if_modifyHead]
      by_cases hc : c == sep
      · simpa [hc] using ih
      · obtain ⟨piece, rest, hpieces⟩ := List.exists_cons_of_ne_nil (List.splitOn_ne_nil sep cs)
        obtain ⟨piece', rest', hpieces'⟩ :=
          List.exists_cons_of_ne_nil (List.splitOn_ne_nil sep (cs ++ after))
        rw [hpieces, hpieces', List.map_cons, List.map_cons, List.cons.injEq] at ih
        have hpiece := congrArg (fun rest => (c :: rest).rdropWhile isBlank) ih.1
        simpa [hpieces, hpieces', hc, ih.2, rdropWhile_cons_rdropWhile] using hpiece

/-- Whether a text is trimmed before it is cut makes no difference to its trimmed pieces. -/
theorem map_strip_splitOn_strip (cs : List Char) :
    ((strip cs).splitOn sep).map strip = (cs.splitOn sep).map strip := by
  obtain ⟨before, after, hbefore, hafter, h⟩ := exists_strip cs
  have hright : ((before ++ strip cs ++ after).splitOn sep).map (·.rdropWhile isBlank) =
      ((before ++ strip cs).splitOn sep).map (·.rdropWhile isBlank) :=
    map_rdropWhile_splitOn_append_right hsep hafter
  have hpieces := congrArg (List.map strip) hright
  simp only [List.map_map, Function.comp_def, strip_rdropWhile] at hpieces
  calc
    ((strip cs).splitOn sep).map strip = ((before ++ strip cs).splitOn sep).map strip :=
      (map_strip_splitOn_append_left hsep hbefore).symm
    _ = ((before ++ strip cs ++ after).splitOn sep).map strip := hpieces.symm
    _ = (cs.splitOn sep).map strip := by rw [← h]

end Cutting

end ShardKeys.Text
