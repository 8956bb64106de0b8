import Mathlib.Data.List.TakeDrop
import Mathlib.Tactic.Tauto
import ShardKeys.Dialect.Quoting

/-! # Reading what was quoted

A quoted text ends at the first quote that is not written twice, and a plain word ends before the
first character that cannot go on with it. Neither end lies in what follows an identifier, so an
identifier is read back from a statement, and so is each part of a name in front of the dot or
behind it.
-/

namespace ShardKeys

/-- The text behind an opening quote, up to the quote that closes it, and what follows. A quote that
is written twice stands for itself. -/
def readBody (quote : Char) : List Char → Option (List Char × List Char)
  | [] => none
  | c :: cs =>
      if c = quote then
        match cs with
        | [] => some ([], [])
        | d :: rest =>
            if d = quote then (readBody quote rest).map (Prod.map (quote :: ·) id)
            else some ([], d :: rest)
      else (readBody quote cs).map (Prod.map (c :: ·) id)

/-- The text between quotes at the front, and what follows it. -/
def readQuoted (quote : Char) : List Char → Option (List Char × List Char)
  | [] => none
  | c :: cs => if c = quote then readBody quote cs else none

/-- The quoted text or else the word at the front, and what follows it. -/
def readIdentifier (quote : Char) (cs : List Char) : Option (List Char × List Char) :=
  if cs.head? = some quote then readQuoted quote cs else some (cs.span Surface.isWordRest)

variable {quote c : Char} {cs text rest : List Char}

/-! ## Quoted text -/

theorem doubled_cons_quote : doubled quote (quote :: cs) = quote :: quote :: doubled quote cs := by
  simp [doubled]

theorem doubled_cons_of_ne (h : c ≠ quote) : doubled quote (c :: cs) = c :: doubled quote cs := by
  simp [doubled, h]

theorem mem_doubled_iff : c ∈ doubled quote cs ↔ c ∈ cs := by
  simp only [doubled, List.mem_flatMap]
  grind

theorem length_doubled : (doubled quote cs).length = cs.length + cs.count quote := by
  induction cs with
  | nil => rfl
  | cons c cs ih =>
      by_cases hc : c = quote
      · subst hc
        rw [doubled_cons_quote, List.count_cons_self]
        simp only [List.length_cons, ih]
        omega
      · rw [doubled_cons_of_ne hc, List.count_cons_of_ne hc]
        simp only [List.length_cons, ih]
        omega

theorem doubled_eq_self_iff : doubled quote cs = cs ↔ quote ∉ cs := by
  constructor
  · intro h
    have hlength := congrArg List.length h
    rw [length_doubled] at hlength
    exact List.count_eq_zero.mp (by omega)
  · intro h
    induction cs with
    | nil => rfl
    | cons c cs ih =>
        obtain ⟨hc, hcs⟩ := not_or.mp (mt List.mem_cons.mpr h)
        rw [doubled_cons_of_ne (Ne.symm hc), ih hcs]

theorem readBody_twice :
    readBody quote (quote :: quote :: cs) = (readBody quote cs).map (Prod.map (quote :: ·) id) := by
  simp [readBody]

theorem readBody_once (h : rest.head? ≠ some quote) :
    readBody quote (quote :: rest) = some ([], rest) := by
  cases rest with
  | nil => simp [readBody]
  | cons d rest =>
      have hd : d ≠ quote := by simpa using h
      simp [readBody, hd]

theorem readBody_of_ne (h : c ≠ quote) :
    readBody quote (c :: cs) = (readBody quote cs).map (Prod.map (c :: ·) id) := by
  rw [readBody.eq_def]
  simp [h]

theorem map_cons_eq_some_iff {read : Option (List Char × List Char)} :
    read.map (Prod.map (c :: ·) id) = some (text, rest) ↔
      ∃ tail, read = some (tail, rest) ∧ c :: tail = text := by
  simp [Prod.ext_iff]

/-- Doubling is undone, and the quote behind it ends the text. -/
theorem readBody_doubled (h : rest.head? ≠ some quote) :
    readBody quote (doubled quote text ++ quote :: rest) = some (text, rest) := by
  induction text with
  | nil => exact readBody_once h
  | cons c text ih =>
      by_cases hc : c = quote
      · subst hc
        rw [doubled_cons_quote, List.cons_append, List.cons_append, readBody_twice, ih]
        rfl
      · rw [doubled_cons_of_ne hc, List.cons_append, readBody_of_ne hc, ih]
        rfl

theorem eq_doubled_of_readBody (h : readBody quote cs = some (text, rest)) :
    rest.head? ≠ some quote ∧ cs = doubled quote text ++ quote :: rest := by
  fun_induction readBody generalizing text with
  | case1 => simp at h
  | case2 =>
      obtain ⟨rfl, rfl⟩ := Prod.mk.inj (Option.some.inj h)
      exact ⟨by simp, rfl⟩
  | case3 cs ih =>
      obtain ⟨tail, htail, rfl⟩ := map_cons_eq_some_iff.mp h
      obtain ⟨hrest, rfl⟩ := ih htail
      exact ⟨hrest, by rw [doubled_cons_quote]; rfl⟩
  | case4 d rest hd =>
      obtain ⟨rfl, rfl⟩ := Prod.mk.inj (Option.some.inj h)
      exact ⟨by simpa using hd, rfl⟩
  | case5 c cs hc ih =>
      obtain ⟨tail, htail, rfl⟩ := map_cons_eq_some_iff.mp h
      obtain ⟨hrest, rfl⟩ := ih htail
      exact ⟨hrest, by rw [doubled_cons_of_ne hc]; rfl⟩

/-- A quoted text is its characters, quotes written twice, between two quotes; no third one
follows. -/
theorem readQuoted_eq_some_iff :
    readQuoted quote cs = some (text, rest) ↔
      rest.head? ≠ some quote ∧ cs = quote :: (doubled quote text ++ quote :: rest) := by
  cases cs with
  | nil => simp [readQuoted]
  | cons c cs =>
      rw [readQuoted, Option.ite_none_right_eq_some, List.cons.injEq]
      constructor
      · rintro ⟨hc, hbody⟩
        obtain ⟨hrest, hcs⟩ := eq_doubled_of_readBody hbody
        exact ⟨hrest, hc, hcs⟩
      · rintro ⟨hrest, hc, rfl⟩
        exact ⟨hc, readBody_doubled hrest⟩

example : readQuoted '"' ['"', '"', '"', '.', '"', '.', 'b'] = some (['"', '.'], ['.', 'b']) := by
  decide

/-! ## Plain words -/

/-- A letter or an underscore. -/
def WordStart (c : Char) : Prop :=
  ('A' ≤ c ∧ c ≤ 'Z') ∨ ('a' ≤ c ∧ c ≤ 'z') ∨ c = '_'

/-- A letter, an underscore or a digit. -/
def WordRest (c : Char) : Prop :=
  WordStart c ∨ ('0' ≤ c ∧ c ≤ '9')

/-- Letter case apart, the same word. -/
def SameLetters (a b : List Char) : Prop :=
  a.map Char.toLower = b.map Char.toLower

/-- A word that is an identifier as it is: letters, digits and underscores without a digit in front,
and in no letter case reserved. -/
structure Surface.StandsAlone (s : Surface) (word : List Char) : Prop where
  plain : ∃ c rest, word = c :: rest ∧ WordStart c ∧ ∀ d ∈ rest, WordRest d
  unreserved : ∀ keyword ∈ s.reserved, ¬SameLetters keyword.toList word

theorem isAlpha_iff (c : Char) : c.isAlpha ↔ ('A' ≤ c ∧ c ≤ 'Z') ∨ ('a' ≤ c ∧ c ≤ 'z') := by
  change (decide ('A' ≤ c ∧ c ≤ 'Z') || decide ('a' ≤ c) && decide (c ≤ 'z')) = true ↔ _
  simp only [Bool.or_eq_true, Bool.and_eq_true, decide_eq_true_eq]

theorem isWordStart_iff : Surface.isWordStart c ↔ WordStart c := by
  simp [Surface.isWordStart, WordStart, isAlpha_iff, or_assoc]

theorem isWordRest_iff : Surface.isWordRest c ↔ WordRest c := by
  rw [WordRest, ← isWordStart_iff]
  simp [Surface.isWordRest, Surface.isWordStart, Char.isAlphanum, Char.isDigit, Char.le_def]
  tauto

theorem isPlainWord_iff :
    Surface.isPlainWord cs ↔ ∃ c rest, cs = c :: rest ∧ WordStart c ∧ ∀ d ∈ rest, WordRest d := by
  cases cs with
  | nil => simp [Surface.isPlainWord]
  | cons c rest => simp [Surface.isPlainWord, isWordStart_iff, isWordRest_iff]

/-- What the case maps change is one of the 26 capitals or one of the 26 small letters. -/
theorem letter_cases (c : Char) :
    (c.toLower = c ∧ c.toUpper = c) ∨ ∃ i : Fin 26, c = .ofNat (65 + i) ∨ c = .ofNat (97 + i) := by
  have hletter : ∀ first, first ≤ c.toNat → c.toNat < first + 26 →
      ∃ i : Fin 26, c = .ofNat (first + i) := by
    intro first hle hlt
    refine ⟨⟨c.toNat - first, by omega⟩, ?_⟩
    rw [Nat.add_sub_cancel' hle, Char.ofNat_toNat]
  by_cases hupper : 65 ≤ c.toNat ∧ c.toNat ≤ 90
  · obtain ⟨i, hi⟩ := hletter 65 hupper.1 (by omega)
    exact .inr ⟨i, .inl hi⟩
  · by_cases hlower : 97 ≤ c.toNat ∧ c.toNat ≤ 122
    · obtain ⟨i, hi⟩ := hletter 97 hlower.1 (by omega)
      exact .inr ⟨i, .inr hi⟩
    · exact .inl ⟨dif_neg hupper, dif_neg hlower⟩

theorem toUpper_toLower (c : Char) : c.toLower.toUpper = c.toUpper := by
  rcases letter_cases c with ⟨hlower, -⟩ | ⟨i, rfl | rfl⟩
  · rw [hlower]
  · decide +revert
  · decide +revert

theorem toLower_toUpper (c : Char) : c.toUpper.toLower = c.toLower := by
  rcases letter_cases c with ⟨-, hupper⟩ | ⟨i, rfl | rfl⟩
  · rw [hupper]
  · decide +revert
  · decide +revert

theorem sameLetters_iff_map_toUpper {a b : List Char} :
    SameLetters a b ↔ a.map Char.toUpper = b.map Char.toUpper := by
  constructor
  · intro h
    simpa [Function.comp_def, toUpper_toLower] using congrArg (List.map Char.toUpper) h
  · intro h
    simpa [SameLetters, Function.comp_def, toLower_toUpper] using congrArg (List.map Char.toLower) h

namespace Surface

variable {s : Surface}

theorem map_toUpper_reserved :
    ∀ keyword ∈ s.reserved, keyword.toList.map Char.toUpper = keyword.toList := by
  cases s <;> decide +kernel

theorem isReserved_iff :
    s.isReserved cs ↔ ∃ keyword ∈ s.reserved, SameLetters keyword.toList cs := by
  simp only [isReserved, List.contains_iff_mem, sameLetters_iff_map_toUpper]
  constructor
  · intro h
    refine ⟨_, h, ?_⟩
    rw [map_toUpper_reserved _ h, String.toList_ofList]
  · rintro ⟨keyword, hkeyword, hletters⟩
    rwa [← hletters, map_toUpper_reserved keyword hkeyword, String.ofList_toList]

theorem StandsAlone.wordRest (h : s.StandsAlone cs) : ∀ c ∈ cs, WordRest c := by
  obtain ⟨c, rest, rfl, hstart, hrest⟩ := h.plain
  exact List.forall_mem_cons.mpr ⟨.inl hstart, hrest⟩

theorem not_wordRest_quoteChar : ¬WordRest s.quoteChar := by
  rw [← isWordRest_iff]
  cases s <;> decide

theorem not_wordRest_dot : ¬WordRest '.' := by
  rw [← isWordRest_iff]
  decide

end Surface

/-! ## Identifiers -/

namespace Dialect

variable {d : Dialect} {ident : String}

theorem needsQuotes_eq_false_iff :
    d.needsQuotes ident = false ↔ d.surface.StandsAlone ident.toList := by
  rw [needsQuotes, Bool.or_eq_false_iff, Bool.not_eq_false', isPlainWord_iff, Bool.eq_false_iff,
    ne_eq, Surface.isReserved_iff]
  constructor
  · rintro ⟨hplain, hfree⟩
    exact ⟨hplain, fun keyword hkeyword hletters => hfree ⟨keyword, hkeyword, hletters⟩⟩
  · rintro ⟨hplain, hfree⟩
    exact ⟨hplain, fun ⟨keyword, hkeyword, hletters⟩ => hfree keyword hkeyword hletters⟩

theorem quote_of_standsAlone (h : d.surface.StandsAlone ident.toList) : d.quote ident = ident := by
  rw [quote, needsQuotes_eq_false_iff.mpr h]
  rfl

theorem toList_quote (h : ¬d.surface.StandsAlone ident.toList) :
    (d.quote ident).toList =
      d.surface.quoteChar
        :: (doubled d.surface.quoteChar ident.toList ++ [d.surface.quoteChar]) := by
  rw [← needsQuotes_eq_false_iff, Bool.not_eq_false] at h
  simp [quote, h]

theorem readQuoted_quote (h : ¬d.surface.StandsAlone ident.toList)
    (hrest : rest.head? ≠ some d.surface.quoteChar) :
    readQuoted d.surface.quoteChar ((d.quote ident).toList ++ rest) =
      some (ident.toList, rest) := by
  rw [readQuoted_eq_some_iff, toList_quote h]
  exact ⟨hrest, by simp⟩

/-- An identifier is read back in front of a character that goes on with no identifier. -/
theorem readIdentifier_quote (hrest : ∀ c ∈ rest.head?, ¬WordRest c ∧ c ≠ d.surface.quoteChar) :
    readIdentifier d.surface.quoteChar ((d.quote ident).toList ++ rest) =
      some (ident.toList, rest) := by
  by_cases h : d.surface.StandsAlone ident.toList
  · have hword : ∀ c ∈ ident.toList, Surface.isWordRest c :=
      fun c hc => isWordRest_iff.mpr (h.wordRest c hc)
    have hstop :
        rest.takeWhile Surface.isWordRest = [] ∧ rest.dropWhile Surface.isWordRest = rest := by
      cases rest with
      | nil => simp
      | cons c rest =>
          have hc : ¬Surface.isWordRest c := by rw [isWordRest_iff]; exact (hrest c rfl).1
          simp [hc]
    have hhead : (ident.toList ++ rest).head? ≠ some d.surface.quoteChar := by
      obtain ⟨c, word, hcons, hstart, -⟩ := h.plain
      rw [hcons]
      rintro ⟨⟩
      exact Surface.not_wordRest_quoteChar (.inl hstart)
    rw [quote_of_standsAlone h, readIdentifier, if_neg hhead, List.span_eq_takeWhile_dropWhile,
      List.takeWhile_append_of_pos hword, List.dropWhile_append_of_pos hword, hstop.1, hstop.2,
      List.append_nil]
  · have hhead : ((d.quote ident).toList ++ rest).head? = some d.surface.quoteChar := by
      simp [toList_quote h]
    rw [readIdentifier, if_pos hhead]
    exact readQuoted_quote h fun hc => (hrest _ hc).2 rfl

theorem readIdentifier_quote_dot (hrest : ∀ c ∈ rest.head?, c = '.') :
    readIdentifier d.surface.quoteChar ((d.quote ident).toList ++ rest) =
      some (ident.toList, rest) := by
  refine readIdentifier_quote fun c hc => ?_
  rw [hrest c hc]
  refine ⟨Surface.not_wordRest_dot, ?_⟩
  cases d.surface <;> decide

theorem readIdentifier_quote_end :
    readIdentifier d.surface.quoteChar (d.quote ident).toList = some (ident.toList, []) := by
  have h :
      readIdentifier d.surface.quoteChar ((d.quote ident).toList ++ []) = some (ident.toList, []) :=
    readIdentifier_quote_dot (by simp)
  rwa [List.append_nil] at h

theorem quote_injective : Function.Injective d.quote := by
  intro a b hab
  have ha : readIdentifier d.surface.quoteChar (d.quote a).toList = some (a.toList, []) :=
    readIdentifier_quote_end
  rw [hab, readIdentifier_quote_end] at ha
  simpa [String.toList_inj, eq_comm] using ha

/-! ## Names -/

theorem readIdentifier_quoteName {n : SequenceName} :
    readIdentifier d.surface.quoteChar (d.quoteName n).toList =
      some (match n.schema with
        | some schema => (schema.toList, '.' :: (d.quote n.name).toList)
        | none => (n.name.toList, [])) := by
  cases hs : n.schema with
  | none =>
      rw [quoteName, hs]
      exact readIdentifier_quote_end
  | some schema =>
      rw [quoteName, hs]
      simp only [String.toList_append, List.append_assoc]
      exact readIdentifier_quote_dot (by simp)

theorem quoteName_injective : Function.Injective d.quoteName := by
  intro a b hab
  have hread := readIdentifier_quoteName (d := d) (n := a)
  rw [hab, readIdentifier_quoteName] at hread
  obtain ⟨schemaA, x⟩ := a
  obtain ⟨schemaB, y⟩ := b
  cases schemaA with
  | none =>
      cases schemaB with
      | none => simpa [String.toList_inj, eq_comm] using hread
      | some t => simp at hread
  | some s =>
      cases schemaB with
      | none => simp at hread
      | some t =>
          simp only [Option.some.injEq, Prod.mk.injEq, List.cons.injEq, true_and,
            String.toList_inj] at hread
          obtain ⟨rfl, hname⟩ := hread
          rw [quote_injective hname]

/-- A text that starts with a quote and is read up to its end as the identifier, whatever follows
but another quote. -/
def Encloses (d : Dialect) (text ident : String) : Prop :=
  text.toList.head? = some d.surface.quoteChar ∧
    ∀ rest : List Char, rest.head? ≠ some d.surface.quoteChar →
      readQuoted d.surface.quoteChar (text.toList ++ rest) = some (ident.toList, rest)

/-- An identifier is written as it is just if it is a plain word that is not reserved. Otherwise it
is enclosed, and no character of it ends the quotes. Different identifiers are written differently,
and so are names that differ in either part, or in that only one of them has a schema. -/
theorem quote_inescapable (d : Dialect) :
    (∀ ident, (d.surface.StandsAlone ident.toList ∧ d.quote ident = ident) ∨
        (¬d.surface.StandsAlone ident.toList ∧ d.Encloses (d.quote ident) ident)) ∧
      Function.Injective d.quote ∧ Function.Injective d.quoteName := by
  refine ⟨fun ident => ?_, quote_injective, quoteName_injective⟩
  by_cases h : d.surface.StandsAlone ident.toList
  · exact .inl ⟨h, quote_of_standsAlone h⟩
  · exact .inr ⟨h, by simp [toList_quote h], fun rest => readQuoted_quote h⟩

end Dialect

end ShardKeys
