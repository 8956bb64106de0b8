import Mathlib.Data.List.TakeWhile
import ShardKeys.Json.Reader
import ShardKeys.Json.Writer

/-! # Reading what was written

A compact text is read as the value that it was written for, if the strings of the value stand for
texts and its numbers are integers. A token shows by its first character what it is. All but numbers
show where they end; a number ends where the comma or bracket behind it stands.
-/

namespace ShardKeys.Json

/-- Values whose numbers are integers and whose strings stand for texts. -/
inductive Value.Plain : Value → Prop where
  | null : Plain .null
  | bool (b : Bool) : Plain (.bool b)
  | integer (negative : Bool) (n : Nat) : Plain (.number (.integer negative n))
  | string (s : String) : Plain (.ofString s)
  | array {items : List Value} (h : ∀ v ∈ items, Plain v) : Plain (.array items)
  | object {members : List (String × Value)} (h : ∀ m ∈ members, Plain m.2) :
      Plain (.ofMembers members)

variable {rest : List Char} {fuel n : Nat} {c : Char}

/-! ## Strings -/

theorem hexValue?_hexDigit : ∀ n < 16, hexValue? (hexDigit n) = some n := by decide

theorem readUnits_hex4 (hn : n < 0x10000) (rest : List Char) :
    readUnits ('\\' :: 'u' :: (hex4 n ++ rest)) =
      (readUnits rest).map fun later => (unitOfCode n :: later.1, later.2) := by
  have hdigit (m : Nat) : hexValue? (hexDigit (m % 16)) = some (m % 16) :=
    hexValue?_hexDigit _ (Nat.mod_lt _ (by decide))
  have hcode :
      code? (hexDigit (n / 0x1000 % 16)) (hexDigit (n / 0x100 % 16)) (hexDigit (n / 0x10 % 16))
      (hexDigit (n % 16)) = some n := by
    simp only [code?, hdigit, Option.bind_eq_bind, Option.bind_some, Option.pure_def,
      Option.some.injEq]
    omega
  rw [hex4, readUnits.eq_def]
  simp only [List.cons_append, List.nil_append, hcode]

theorem unitOfCode_control (h : c.toNat < 0x20) : unitOfCode c.toNat = .char c := by
  have hhigh : isHighHalf c.toNat = false := by simp [isHighHalf]; omega
  have hlow : isLowHalf c.toNat = false := by simp [isLowHalf]; omega
  simp [unitOfCode, hhigh, hlow, Char.ofNat_toNat]

theorem readUnits_cons (hquote : c ≠ '\x22') (hslash : c ≠ '\\') (rest : List Char) :
    readUnits (c :: rest) =
      if c.toNat < 0x20 then none
      else (readUnits rest).map fun later => (.char c :: later.1, later.2) := by
  rw [readUnits.eq_def]
  split <;> simp_all

theorem readUnits_writeChar (c : Char) (rest : List Char) :
    readUnits (writeChar c ++ rest) =
      (readUnits rest).map fun later => (.char c :: later.1, later.2) := by
  unfold writeChar
  cases hshort : shortEscapes.lookup c with
  | some letter =>
      have hmem : (c, letter) ∈ shortEscapes := by
        obtain ⟨before, after, h, -⟩ := List.lookup_eq_some_iff.mp hshort
        exact h ▸ List.mem_append_right _ List.mem_cons_self
      simp only [shortEscapes, List.mem_cons, Prod.mk.injEq, List.not_mem_nil, or_false] at hmem
      rcases hmem with ⟨rfl, rfl⟩ | ⟨rfl, rfl⟩ | ⟨rfl, rfl⟩ | ⟨rfl, rfl⟩ | ⟨rfl, rfl⟩ | ⟨rfl, rfl⟩ |
        ⟨rfl, rfl⟩ <;> rfl
  | none =>
      have hquote : c ≠ '\x22' := by rintro rfl; simp [shortEscapes] at hshort
      have hslash : c ≠ '\\' := by rintro rfl; simp [shortEscapes] at hshort
      by_cases hcontrol : c.toNat < 0x20
      · simp only [hcontrol, if_true, List.cons_append]
        rw [readUnits_hex4 (by omega), unitOfCode_control hcontrol]
      · simp [hcontrol, readUnits_cons hquote hslash]

theorem readUnits_ofString (s : String) (rest : List Char) :
    readUnits ((Text.ofString s).flatMap writeUnit ++ '\x22' :: rest) =
      some (.ofString s, rest) := by
  unfold Text.ofString
  induction s.toList with
  | nil => rfl
  | cons c cs ih =>
      rw [List.map_cons, List.flatMap_cons, List.append_assoc, writeUnit, readUnits_writeChar, ih]
      rfl

theorem joinPairs_ofString (s : String) : joinPairs (.ofString s) = .ofString s := by
  unfold Text.ofString
  induction s.toList with
  | nil => simp [joinPairs]
  | cons c cs ih => rw [List.map_cons, joinPairs, ih]; simp

theorem readText_ofString (s : String) (rest : List Char) :
    readText ((Text.ofString s).flatMap writeUnit ++ '\x22' :: rest) =
      some (.ofString s, rest) := by
  simp [readText, readUnits_ofString, joinPairs_ofString]

/-! ## Numbers -/

/-- What may stand behind a value: nothing, or a comma or closing bracket first. -/
def Ends (rest : List Char) : Prop :=
  ∀ c ∈ rest.head?, c = ',' ∨ c = ']' ∨ c = '\x7d'

theorem ends_writeItems (items : List Value) (rest : List Char) :
    Ends (writeItems items ++ rest) := by
  cases items <;> simp [Ends]

theorem readDigits_append {digits : List Char} (hne : digits ≠ [])
    (hdigits : ∀ c ∈ digits, c.isDigit)
    (hrest : Ends rest) : readDigits (digits ++ rest) = some (digits, rest) := by
  have hstop : rest.takeWhile Char.isDigit = [] ∧ rest.dropWhile Char.isDigit = rest := by
    cases rest with
    | nil => exact ⟨rfl, rfl⟩
    | cons c rest =>
        have hc : ¬c.isDigit := by
          rcases hrest c rfl with rfl | rfl | rfl <;> decide
        simp [hc]
  rw [readDigits, List.takeWhile_append_of_pos hdigits, List.dropWhile_append_of_pos hdigits,
    hstop.1, hstop.2, List.append_nil]
  cases digits with
  | nil => exact absurd rfl hne
  | cons d digits => rfl

theorem readFraction_of_ends (hrest : Ends rest) : readFraction rest = some ([], rest) := by
  unfold readFraction
  split
  · have := hrest '.' rfl
    simp at this
  · rfl

theorem readExponent_of_ends (hrest : Ends rest) : readExponent rest = some ([], rest) := by
  unfold readExponent
  split
  · next mark rest =>
      have hmark : mark ≠ 'e' ∧ mark ≠ 'E' := by
        rcases hrest mark rfl with rfl | rfl | rfl <;> decide
      simp [hmark]
  · rfl

/-- The first character of a natural number is a digit, and zero only of zero itself. -/
theorem exists_toDigits_eq_cons (n : Nat) :
    ∃ d ds, Nat.toDigits 10 n = d :: ds ∧ d.isDigit ∧ (d = '0' → n = 0) := by
  induction n using Nat.strongRecOn with
  | _ n ih =>
      by_cases hlt : n < 10
      · have hdigit : (Nat.digitChar n).isDigit :=
          Nat.isDigit_of_mem_toDigits (by decide) (by decide)
            (Nat.toDigits_of_lt_base hlt ▸ List.mem_singleton_self _)
        exact ⟨_, [], Nat.toDigits_of_lt_base hlt, hdigit, by simp⟩
      · obtain ⟨d, ds, hds, hd, hzero⟩ := ih (n / 10) (by omega)
        rw [Nat.toDigits_of_base_le (by decide) (by omega), hds]
        exact ⟨d, _, rfl, hd, fun h => by have := hzero h; omega⟩

theorem readWhole_toDigits (n : Nat) (hrest : Ends rest) :
    readWhole (Nat.toDigits 10 n ++ rest) = some (Nat.toDigits 10 n, rest) := by
  have hdigits : ∀ c ∈ Nat.toDigits 10 n, c.isDigit :=
    fun c hc => Nat.isDigit_of_mem_toDigits (by decide) (by decide) hc
  rw [readWhole, readDigits_append Nat.toDigits_ne_nil hdigits hrest]
  split
  · next d ds _ h =>
      simp only [Option.some.injEq, Prod.mk.injEq] at h
      obtain ⟨d, ds, hds, -, hzero⟩ := exists_toDigits_eq_cons n
      rw [hds, List.cons.injEq] at h
      obtain rfl := hzero h.1.1
      rw [Nat.toDigits_zero] at hds
      cases hds
      simp at h
  · rfl

theorem readMagnitude_toDigits (negative : Bool) (n : Nat) (hrest : Ends rest) :
    readMagnitude negative (Nat.toDigits 10 n ++ rest) = some (.integer negative n, rest) := by
  simp [readMagnitude, readWhole_toDigits n hrest, readFraction_of_ends hrest,
    readExponent_of_ends hrest, Nat.ofDigitChars_ten_toDigits]

theorem writeNumber_integer (negative : Bool) (n : Nat) :
    writeNumber (.integer negative n) = (if negative then ['-'] else []) ++ Nat.toDigits 10 n := by
  simp [writeNumber, Nat.toString_eq_repr]

theorem exists_writeNumber_eq_cons (negative : Bool) (n : Nat) :
    ∃ c cs, writeNumber (.integer negative n) = c :: cs ∧ (c.isDigit ∨ c = '-') := by
  rw [writeNumber_integer]
  cases negative with
  | true => exact ⟨_, _, rfl, .inr rfl⟩
  | false =>
      obtain ⟨d, ds, hds, hd, -⟩ := exists_toDigits_eq_cons n
      exact ⟨d, ds, by simp [hds], .inl hd⟩

theorem readNumber_integer (negative : Bool) (n : Nat) (hrest : Ends rest) :
    readNumber (writeNumber (.integer negative n) ++ rest) = some (.integer negative n, rest) := by
  rw [writeNumber_integer]
  cases negative with
  | true => simpa [readNumber] using readMagnitude_toDigits true n hrest
  | false =>
      obtain ⟨d, ds, hds, hd, -⟩ := exists_toDigits_eq_cons n
      have hminus : d ≠ '-' := by rintro rfl; simp at hd
      have h := readMagnitude_toDigits false n hrest
      rw [hds] at h
      simpa [hds, readNumber, hminus] using h

/-! ## Tokens -/

theorem skipSpace_cons {cs : List Char} (h : isSpace c = false) :
    skipSpace (c :: cs) = c :: cs := by
  simp [skipSpace, h]

theorem readValue_null (rest : List Char) :
    readValue (fuel + 1) (writeValue .null ++ rest) = some (.null, rest) := rfl

theorem readValue_bool (b : Bool) (rest : List Char) :
    readValue (fuel + 1) (writeValue (.bool b) ++ rest) = some (.bool b, rest) := by
  cases b <;> rfl

theorem readValue_quote (cs : List Char) :
    readValue (fuel + 1) ('\x22' :: cs) =
      (readText cs).map fun found => (.string found.1, found.2) := rfl

theorem readValue_emptyArray (rest : List Char) :
    readValue (fuel + 1) (writeValue (.array []) ++ rest) = some (.array [], rest) := rfl

theorem readValue_bracket {cs : List Char} (hspace : isSpace c = false) (hclose : c ≠ ']') :
    readValue (fuel + 1) ('[' :: c :: cs) =
      (readItems fuel (c :: cs)).map fun found => (.array found.1, found.2) := by
  rw [readValue.eq_def]
  simp [skipSpace_cons hspace, skipSpace_cons (c := '[') (by decide), hclose]

theorem readValue_emptyObject (rest : List Char) :
    readValue (fuel + 1) (writeValue (.object []) ++ rest) = some (.object [], rest) := rfl

theorem readValue_brace (cs : List Char) :
    readValue (fuel + 1) ('\x7b' :: '\x22' :: cs) =
      (readMembers fuel ('\x22' :: cs)).map fun found => (.object found.1, found.2) := rfl

theorem isSpace_of_number (h : c.isDigit ∨ c = '-') : isSpace c = false := by
  rw [← Bool.not_eq_true]
  simp only [isSpace, Bool.or_eq_true, decide_eq_true_eq]
  rintro (((rfl | rfl) | rfl) | rfl) <;> simp at h

theorem readValue_number {cs : List Char} (h : c.isDigit ∨ c = '-') :
    readValue (fuel + 1) (c :: cs) =
      (readNumber (c :: cs)).map fun found => (.number found.1, found.2) := by
  rw [readValue.eq_def]
  simp only [skipSpace_cons (isSpace_of_number h)]
  split <;> simp_all

theorem readItems_comma {cs : List Char} {v : Value}
    (h : readValue fuel cs = some (v, ',' :: rest)) :
    readItems (fuel + 1) cs = (readItems fuel rest).map fun later => (v :: later.1, later.2) := by
  rw [readItems.eq_def]
  simp only [h]
  rfl

theorem readItems_bracket {cs : List Char} {v : Value}
    (h : readValue fuel cs = some (v, ']' :: rest)) :
    readItems (fuel + 1) cs = some ([v], rest) := by
  rw [readItems.eq_def]
  simp only [h]
  rfl

/-! ## Values -/

/-- A value is read in front of whatever may stand behind it, with no more nested calls than
characters. -/
def Value.Readable (v : Value) : Prop :=
  ∀ (fuel : Nat) (rest : List Char), (writeValue v).length ≤ fuel → Ends rest →
    readValue fuel (writeValue v ++ rest) = some (v, rest)

/-- A value shows at once that a list has not ended and that no blank stands before it. -/
theorem Value.Plain.exists_writeValue_eq_cons {v : Value} (h : v.Plain) :
    ∃ c cs, writeValue v = c :: cs ∧ isSpace c = false ∧ c ≠ ']' := by
  cases h with
  | null => exact ⟨_, _, rfl, by decide, by decide⟩
  | bool b => cases b <;> exact ⟨_, _, rfl, by decide, by decide⟩
  | integer negative n =>
      obtain ⟨c, cs, hcs, hc⟩ := exists_writeNumber_eq_cons negative n
      exact ⟨c, cs, by rw [writeValue_number, hcs], isSpace_of_number hc, by rintro rfl; simp at hc⟩
  | string s => exact ⟨_, _, rfl, by decide, by decide⟩
  | @array items h => cases items <;> exact ⟨_, _, rfl, by decide, by decide⟩
  | @object members h => cases members <;> exact ⟨_, _, rfl, by decide, by decide⟩

theorem readable_null : Value.null.Readable := by
  intro fuel rest hfuel hrest
  cases fuel with
  | zero => exact absurd hfuel (by decide)
  | succ fuel => exact readValue_null rest

theorem readable_bool (b : Bool) : (Value.bool b).Readable := by
  intro fuel rest hfuel hrest
  cases fuel with
  | zero => cases b <;> exact absurd hfuel (by decide)
  | succ fuel => exact readValue_bool b rest

theorem readable_integer (negative : Bool) (n : Nat) :
    (Value.number (.integer negative n)).Readable := by
  intro fuel rest hfuel hrest
  obtain ⟨c, cs, hcs, hc⟩ := exists_writeNumber_eq_cons negative n
  rw [writeValue_number, hcs] at hfuel ⊢
  cases fuel with
  | zero => simp at hfuel
  | succ fuel =>
      rw [List.cons_append, readValue_number hc, ← List.cons_append, ← hcs,
        readNumber_integer negative n hrest]
      rfl

theorem readable_string (s : String) : (Value.ofString s).Readable := by
  intro fuel rest hfuel hrest
  rw [Value.ofString, writeValue_string, writeText] at hfuel ⊢
  cases fuel with
  | zero => simp at hfuel
  | succ fuel =>
      rw [List.cons_append, List.append_assoc, readValue_quote, List.singleton_append,
        readText_ofString]
      rfl

theorem readItems_writeItems {v : Value} {items : List Value} (h : ∀ w ∈ v :: items, w.Readable)
    (hfuel : (writeValue v ++ writeItems items).length ≤ fuel) (rest : List Char) :
    readItems fuel (writeValue v ++ (writeItems items ++ rest)) = some (v :: items, rest) := by
  induction items generalizing v fuel with
  | nil =>
      cases fuel with
      | zero => simp at hfuel
      | succ fuel =>
          have hv :=
            h v List.mem_cons_self fuel (']' :: rest) (by simpa using hfuel) (by simp [Ends])
          exact readItems_bracket hv
  | cons w items ih =>
      cases fuel with
      | zero => simp at hfuel
      | succ fuel =>
          simp only [writeItems_cons, List.length_append, List.length_cons] at hfuel
          have hv : readValue fuel (writeValue v ++ (writeItems (w :: items) ++ rest)) =
              some (v, ',' :: (writeValue w ++ (writeItems items ++ rest))) := by
            rw [h v List.mem_cons_self fuel _ (by omega) (ends_writeItems _ rest), writeItems_cons,
              List.cons_append, List.append_assoc]
          -- the comma pays for the call that reads the items behind it
          have hlater : (writeValue w ++ writeItems items).length ≤ fuel := by
            rw [List.length_append]
            omega
          have hitems := ih (List.forall_mem_cons.mp h).2 hlater
          rw [readItems_comma hv, hitems]
          rfl

theorem readable_array {items : List Value} (hplain : ∀ v ∈ items, v.Plain)
    (h : ∀ v ∈ items, v.Readable) : (Value.array items).Readable := by
  intro fuel rest hfuel hrest
  cases fuel with
  | zero =>
      cases items with
      | nil => exact absurd hfuel (by decide)
      | cons v items => simp at hfuel
  | succ fuel =>
      cases items with
      | nil => exact readValue_emptyArray rest
      | cons v items =>
          simp only [writeValue_array_cons, List.length_cons, Nat.add_le_add_iff_right] at hfuel
          have hitems := readItems_writeItems h hfuel rest
          obtain ⟨c, cs, hcs, hspace, hclose⟩ :=
            (hplain v List.mem_cons_self).exists_writeValue_eq_cons
          rw [hcs, List.cons_append] at hitems
          rw [writeValue_array_cons, hcs, List.cons_append, List.append_assoc, List.cons_append,
            readValue_bracket hspace hclose, hitems]
          rfl

/-- A member is read up to what stands behind it. -/
theorem readMembers_comma (name : String) {v : Value} (hv : v.Readable)
    (hfuel : (writeValue v).length ≤ fuel) (rest : List Char) :
    readMembers (fuel + 1) (writeText (.ofString name) ++ ':' :: (writeValue v ++ ',' :: rest)) =
      (readMembers fuel rest).map fun later => ((.ofString name, v) :: later.1, later.2) := by
  have hread := hv fuel (',' :: rest) hfuel (by simp [Ends])
  rw [writeText, List.cons_append, List.append_assoc, List.singleton_append, readMembers.eq_def]
  simp [readText_ofString, skipSpace_cons, isSpace, hread]

theorem readMembers_brace (name : String) {v : Value} (hv : v.Readable)
    (hfuel : (writeValue v).length ≤ fuel) (rest : List Char) :
    readMembers (fuel + 1) (writeText (.ofString name) ++ ':' :: (writeValue v ++ '\x7d' :: rest)) =
      some ([(.ofString name, v)], rest) := by
  have hread := hv fuel ('\x7d' :: rest) hfuel (by simp [Ends])
  rw [writeText, List.cons_append, List.append_assoc, List.singleton_append, readMembers.eq_def]
  simp [readText_ofString, skipSpace_cons, isSpace, hread]

theorem readMembers_writeMembers {name : String} {v : Value} {members : List (String × Value)}
    (hv : v.Readable) (h : ∀ m ∈ members, m.2.Readable)
    (hfuel : (writeText (.ofString name) ++ ':' :: (writeValue v ++
      writeMembers (members.map fun m => (.ofString m.1, m.2)))).length ≤ fuel) (rest : List Char) :
    readMembers fuel (writeText (.ofString name) ++ ':' :: (writeValue v ++
        (writeMembers (members.map fun m => (.ofString m.1, m.2)) ++ rest))) =
      some ((.ofString name, v) :: members.map fun m => (.ofString m.1, m.2), rest) := by
  induction members generalizing name v fuel with
  | nil =>
      simp only [List.length_append, List.length_cons, List.map_nil, writeMembers_nil] at hfuel
      cases fuel with
      | zero => simp at hfuel
      | succ fuel => exact readMembers_brace name hv (by omega) rest
  | cons m members ih =>
      simp only [List.length_append, List.length_cons, List.map_cons, writeMembers_cons] at hfuel
      cases fuel with
      | zero => simp at hfuel
      | succ fuel =>
          obtain ⟨hm, hmembers⟩ := List.forall_mem_cons.mp h
          have hlater : (writeText (.ofString m.1) ++ ':' :: (writeValue m.2 ++
              writeMembers (members.map fun m => (.ofString m.1, m.2)))).length ≤ fuel := by
            simp only [List.length_append, List.length_cons]
            omega
          have hread := ih hm hmembers hlater
          rw [List.map_cons, writeMembers_cons, List.cons_append,
            readMembers_comma name hv (by omega)]
          simp [hread]

theorem readable_object {members : List (String × Value)} (h : ∀ m ∈ members, m.2.Readable) :
    (Value.ofMembers members).Readable := by
  intro fuel rest hfuel hrest
  rw [Value.ofMembers] at hfuel ⊢
  cases fuel with
  | zero =>
      cases members with
      | nil => exact absurd hfuel (by decide)
      | cons m members => simp at hfuel
  | succ fuel =>
      cases members with
      | nil => exact readValue_emptyObject rest
      | cons m members =>
          obtain ⟨hm, hmembers⟩ := List.forall_mem_cons.mp h
          simp only [List.map_cons, writeValue_object_cons, List.length_cons,
            Nat.add_le_add_iff_right] at hfuel
          have hread := readMembers_writeMembers hm hmembers hfuel rest
          rw [writeText, List.cons_append] at hread
          rw [List.map_cons, writeValue_object_cons, writeText, List.cons_append, List.cons_append,
            List.cons_append, readValue_brace]
          simpa using hread

theorem Value.Plain.readable {v : Value} (h : v.Plain) : v.Readable := by
  induction h with
  | null => exact readable_null
  | bool b => exact readable_bool b
  | integer negative n => exact readable_integer negative n
  | string s => exact readable_string s
  | array h ih => exact readable_array h ih
  | object h ih => exact readable_object ih

theorem parse_compact {v : Value} (h : v.Plain) : parse v.compact = some v := by
  have hread := h.readable (2 * (writeValue v).length + 2) [] (by omega) (by simp [Ends])
  rw [List.append_nil] at hread
  simp [parse, Value.compact, hread, skipSpace]

end ShardKeys.Json
