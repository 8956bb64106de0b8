import ShardKeys.Dialect.FetchQuery
import ShardKeys.Dialect.Limits
import ShardKeys.Proofs.Dialect.Quoting
import ShardKeys.Proofs.Fallible

/-! # The select list that takes counters

Each item of the list holds the name of the sequence between single quotes. The name is put there as
a statement has it, with the quotes of an identifier doubled and no others. So a single quote in the
name ends the literal.
-/

namespace ShardKeys

/-- A whole string literal, in which a single quote of the value is written twice. -/
def IsLiteral (literal value : String) : Prop :=
  readQuoted '\'' literal.toList = some (value.toList, [])

/-- The hints, and a select list of as many items as counters are wanted, each with a literal for
the name. -/
def SelectsValues (query name : String) (count : Nat) : Prop :=
  ∃ literals : List String,
    literals.length = count ∧ (∀ literal ∈ literals, IsLiteral literal name) ∧
    query = Dialect.fetchHints ++ " select "
      ++ ", ".intercalate (literals.map fun literal => "nextval(" ++ literal ++ ") as n")

/-- The literal of a value. -/
def literalOf (value : String) : String :=
  String.ofList ('\'' :: (doubled '\'' value.toList ++ ['\'']))

variable {a b literal query name value : String} {count : Nat} {c : Char} {d : Dialect}
  {s : Sequence}

/-! ## Literals -/

theorem isLiteral_iff : IsLiteral literal value ↔ literal = literalOf value := by
  rw [IsLiteral, readQuoted_eq_some_iff, literalOf, ← String.toList_inj]
  simp

theorem toList_enclosed : ("'" ++ value ++ "'").toList = '\'' :: (value.toList ++ ['\'']) := by
  simp

/-- Between single quotes, just a value without a single quote is its own literal. -/
theorem isLiteral_enclosed_iff : IsLiteral ("'" ++ value ++ "'") value ↔ '\'' ∉ value.toList := by
  rw [IsLiteral, readQuoted_eq_some_iff, toList_enclosed, ← doubled_eq_self_iff]
  simp [eq_comm]

theorem length_literalOf :
    (literalOf value).length = ("'" ++ value ++ "'").length + value.toList.count '\'' := by
  rw [← String.length_toList, ← String.length_toList, toList_enclosed, literalOf,
    String.toList_ofList]
  simp only [List.length_cons, List.length_append, length_doubled, List.length_nil]
  omega

/-! ## Select lists -/

theorem length_intercalate_replicate (sep : String) :
    (sep.intercalate (List.replicate (count + 1) a)).length =
      (count + 1) * a.length + count * sep.length := by
  induction count with
  | zero => simp
  | succ count ih =>
      rw [List.replicate_succ, List.replicate_succ, String.intercalate_cons_cons,
        ← List.replicate_succ]
      simp only [String.length_append, ih, Nat.succ_mul]
      omega

theorem length_eq_of_intercalate_replicate {sep : String} (hcount : 0 < count)
    (h : sep.intercalate (List.replicate count a) = sep.intercalate (List.replicate count b)) :
    a.length = b.length := by
  obtain ⟨count, rfl⟩ := Nat.exists_eq_add_of_lt hcount
  have hlength := congrArg String.length h
  rw [Nat.zero_add, length_intercalate_replicate, length_intercalate_replicate] at hlength
  exact Nat.eq_of_mul_eq_mul_left (Nat.succ_pos count) (Nat.add_right_cancel hlength)

theorem selectsValues_iff :
    SelectsValues query name count ↔
      query = Dialect.fetchHints ++ " select "
        ++ ", ".intercalate (List.replicate count ("nextval(" ++ literalOf name ++ ") as n")) := by
  simp only [SelectsValues, isLiteral_iff]
  constructor
  · rintro ⟨literals, hlength, hliterals, rfl⟩
    rw [List.eq_replicate_iff.mpr ⟨hlength, hliterals⟩, List.map_replicate]
  · rintro rfl
    exact ⟨List.replicate count (literalOf name), by simp, by simp, by rw [List.map_replicate]⟩

/-! ## Quotes in names -/

namespace Dialect

theorem mem_quote_iff {ident : String} (hc : c ≠ d.surface.quoteChar) :
    c ∈ (d.quote ident).toList ↔ c ∈ ident.toList := by
  by_cases h : d.surface.StandsAlone ident.toList
  · rw [quote_of_standsAlone h]
  · simp [toList_quote h, mem_doubled_iff, hc]

theorem mem_quoteName_iff {n : SequenceName} (hc : c ≠ d.surface.quoteChar) :
    c ∈ (d.quoteName n).toList ↔ c ∈ n.text.toList := by
  cases hs : n.schema with
  | none => simp [quoteName, SequenceName.text, hs, mem_quote_iff hc]
  | some schema => simp [quoteName, SequenceName.text, hs, mem_quote_iff hc]

theorem singleQuote_ne_quoteChar (surface : Surface) : '\'' ≠ surface.quoteChar := by
  cases surface <;> decide

theorem nextValueItem_eq : nextValueItem name = "nextval(" ++ ("'" ++ name ++ "'") ++ ") as n" := by
  rw [← String.toList_inj]
  simp [nextValueItem]

theorem fetchQuery_postgreSql (hd : d.surface = .postgreSql) :
    d.fetchQuery s = fetchHints ++ " select " ++ ", ".intercalate
      (List.replicate s.poolSize.toNat
        ("nextval(" ++ ("'" ++ d.quoteName s.name ++ "'") ++ ") as n")) := by
  rw [fetchQuery, hd, ← nextValueItem_eq]

theorem selectsValues_fetchQuery_iff (hd : d.surface = .postgreSql) :
    SelectsValues (d.fetchQuery s) (d.quoteName s.name) s.poolSize.toNat ↔
      '\'' ∉ (d.quoteName s.name).toList := by
  rw [selectsValues_iff, fetchQuery_postgreSql hd]
  constructor
  · intro h
    have hlists := (String.append_right_inj _).mp h
    have hlength := length_eq_of_intercalate_replicate s.poolSize_pos hlists
    simp only [String.length_append _ ") as n", String.length_append "nextval(",
      length_literalOf] at hlength
    exact List.count_eq_zero.mp (by omega)
  · intro h
    rw [isLiteral_iff.mp (isLiteral_enclosed_iff.mpr h)]

end Dialect

theorem Declaration.validateFor_eq_ok_iff {declared : Declaration} :
    declared.validateFor d = .ok s ↔ declared.validate = .ok s ∧ d.Admits s := by
  rw [validateFor, bind_eq_ok_iff]
  constructor
  · rintro ⟨t, hvalidate, h⟩
    obtain ⟨_, hcheck, hs⟩ := bind_eq_ok_iff.mp h
    obtain rfl : t = s := Except.ok.inj hs
    exact ⟨hvalidate, Dialect.check_eq_ok_iff.mp hcheck⟩
  · rintro ⟨hvalidate, hadmits⟩
    exact ⟨s, hvalidate, bind_eq_ok_iff.mpr ⟨(), Dialect.check_eq_ok_iff.mpr hadmits, rfl⟩⟩

namespace Dialect

/-- A fetch selects as many values as the pool takes, at most a thousand, by items that are all
alike. What they hold between single quotes is a literal for the name just if no part of the name
has a single quote, and otherwise no reading of the list finds a literal for the name in every
item. -/
theorem fetchQuery_selects_iff {declared : Declaration} (hd : d.surface = .postgreSql)
    (h : declared.validateFor d = .ok s) :
    (0 < s.poolSize.toNat ∧ s.poolSize.toNat ≤ 1000) ∧
      (∃ literal, d.fetchQuery s = fetchHints ++ " select "
          ++ ", ".intercalate
            (List.replicate s.poolSize.toNat ("nextval(" ++ literal ++ ") as n")) ∧
        (IsLiteral literal (d.quoteName s.name) ↔ '\'' ∉ s.name.text.toList)) ∧
      (SelectsValues (d.fetchQuery s) (d.quoteName s.name) s.poolSize.toNat ↔
        '\'' ∉ s.name.text.toList) := by
  have hquote : '\'' ∈ (d.quoteName s.name).toList ↔ '\'' ∈ s.name.text.toList :=
    mem_quoteName_iff (singleQuote_ne_quoteChar d.surface)
  have hadmits := (Declaration.validateFor_eq_ok_iff.mp h).2
  refine ⟨⟨s.poolSize_pos, hadmits 1000 (by rw [hd]; rfl)⟩, ⟨_, fetchQuery_postgreSql hd, ?_⟩, ?_⟩
  · rw [isLiteral_enclosed_iff, hquote]
  · rw [selectsValues_fetchQuery_iff hd, hquote]

/-- The double quotes in a name are written twice, and the literal is whole. -/
theorem fetchQuery_selects_iff_years :
    let d : Dialect := { surface := .postgreSql }
    let declared : Declaration := { name := "billing.year \"one\"", poolSize := 2 }
    ∃ s, declared.validateFor d = .ok s ∧
      SelectsValues (d.fetchQuery s) "billing.\"year \"\"one\"\"\"" 2 := by
  intro d declared
  let s : Sequence :=
    { name := ⟨some "billing", "year \"one\""⟩
      start := 1
      poolSize := 2
      excluded := .ofIntervals []
      start_pos := by decide
      start_lt := by decide
      poolSize_pos := by decide }
  have h : declared.validateFor d = .ok s := by decide +kernel
  have hname : d.quoteName s.name = "billing.\"year \"\"one\"\"\"" := by decide +kernel
  have hfree : '\'' ∉ s.name.text.toList := by decide +kernel
  exact ⟨s, h, hname ▸ (fetchQuery_selects_iff rfl h).2.2.mpr hfree⟩

/-- A single quote in a name ends the literal, and the rest of the name stands behind it. -/
theorem fetchQuery_breaks_literal :
    let d : Dialect := { surface := .postgreSql }
    let declared : Declaration := { name := "seller's_orders", poolSize := 1 }
    ∃ s, declared.validateFor d = .ok s ∧ d.quoteName s.name = "\"seller's_orders\"" ∧
      d.fetchQuery s = fetchHints ++ " select nextval('\"seller's_orders\"') as n" ∧
      readQuoted '\'' "'\"seller's_orders\"') as n".toList =
        some ("\"seller".toList, "s_orders\"') as n".toList) ∧
      ¬SelectsValues (d.fetchQuery s) (d.quoteName s.name) s.poolSize.toNat := by
  intro d declared
  let s : Sequence :=
    { name := ⟨none, "seller's_orders"⟩
      start := 1
      poolSize := 1
      excluded := .ofIntervals []
      start_pos := by decide
      start_lt := by decide
      poolSize_pos := by decide }
  refine ⟨s, by decide +kernel, by decide +kernel, by decide +kernel, by decide +kernel, ?_⟩
  rw [selectsValues_fetchQuery_iff rfl]
  decide +kernel

end Dialect

end ShardKeys
