/-!
Finite sets of names and finite maps keyed by names, held in ascending order of code points. Both
keep the order as part of the value, so two sets with the same members, or two maps with the same
entries, are equal.
-/

namespace ShardKeys

/-- A finite set of names. -/
structure NameSet where
  toList : List String
  ascending : toList.Pairwise (· < ·) := by exact .nil
  deriving DecidableEq

namespace NameSet

/-- Puts a name into its place in an ascending list, unless it stands there already. -/
def place (name : String) : List String → List String
  | [] => [name]
  | m :: rest =>
      if name < m then name :: m :: rest
      else if name = m then m :: rest
      else m :: place name rest

theorem mem_place {x name : String} {names : List String} :
    x ∈ place name names ↔ x = name ∨ x ∈ names := by
  induction names with
  | nil => simp [place]
  | cons m rest ih =>
      rw [place]
      split
      · simp
      · split
        · simp_all
        · simp only [List.mem_cons, ih]
          grind

theorem place_ascending {name : String} {names : List String} (h : names.Pairwise (· < ·)) :
    (place name names).Pairwise (· < ·) := by
  induction names with
  | nil => simp [place]
  | cons m rest ih =>
      obtain ⟨hm, hrest⟩ := List.pairwise_cons.mp h
      rw [place]
      split
      · next hlt =>
          refine List.pairwise_cons.mpr ⟨fun x hx => ?_, h⟩
          rcases List.mem_cons.mp hx with rfl | hx
          · exact hlt
          · exact String.lt_trans hlt (hm x hx)
      · next hlt =>
          split
          · exact h
          · next hne =>
              refine List.pairwise_cons.mpr ⟨fun x hx => ?_, ih hrest⟩
              rcases mem_place.mp hx with rfl | hx
              · rcases Std.lt_trichotomy x m with h1 | h1 | h1
                · exact absurd h1 hlt
                · exact absurd h1 hne
                · exact h1
              · exact hm x hx

theorem ext {s t : NameSet} (h : s.toList = t.toList) : s = t := by
  cases s
  cases t
  cases h
  rfl

def empty : NameSet := ⟨[], .nil⟩

instance : Inhabited NameSet := ⟨empty⟩

instance : Membership String NameSet := ⟨fun s name => name ∈ s.toList⟩

def contains (s : NameSet) (name : String) : Bool :=
  s.toList.contains name

def insert (s : NameSet) (name : String) : NameSet :=
  ⟨place name s.toList, place_ascending s.ascending⟩

/-- The set of the names of a list, which may hold a name more than once. -/
def ofList (names : List String) : NameSet :=
  names.foldl insert empty

/-- A name above all others is placed behind them. -/
theorem place_of_forall_lt {name : String} {names : List String} (h : ∀ m ∈ names, m < name) :
    place name names = names ++ [name] := by
  induction names with
  | nil => rfl
  | cons m rest ih =>
      obtain ⟨hm, hrest⟩ := List.forall_mem_cons.mp h
      have hne : name ≠ m := fun heq => String.lt_irrefl _ (heq ▸ hm)
      rw [place, if_neg (String.lt_asymm hm), if_neg hne, ih hrest, List.cons_append]

theorem toList_foldl_insert {s : NameSet} {names : List String}
    (h : (s.toList ++ names).Pairwise (· < ·)) :
    (names.foldl insert s).toList = s.toList ++ names := by
  induction names generalizing s with
  | nil => simp
  | cons name rest ih =>
      have hlast : ∀ m ∈ s.toList, m < name :=
        fun m hm => (List.pairwise_append.mp h).2.2 m hm name List.mem_cons_self
      have hinsert : (s.insert name).toList = s.toList ++ [name] := place_of_forall_lt hlast
      rw [List.foldl_cons, ih (by simpa [hinsert] using h), hinsert, List.append_assoc,
        List.singleton_append]

/-- A set is made of its members again. -/
@[simp] theorem ofList_toList (s : NameSet) : ofList s.toList = s :=
  ext (toList_foldl_insert (s := empty) s.ascending)

@[simp] theorem contains_insert (s : NameSet) (name x : String) :
    (s.insert name).contains x = (x == name || s.contains x) := by
  rw [Bool.eq_iff_iff]
  simp [contains, insert, mem_place]

@[simp] theorem contains_foldl_insert (s : NameSet) (names : List String) (x : String) :
    (names.foldl insert s).contains x = (names.contains x || s.contains x) := by
  induction names generalizing s with
  | nil => simp
  | cons name rest ih =>
      rw [List.foldl_cons, ih, contains_insert, List.contains_cons, Bool.or_left_comm,
        Bool.or_assoc]

@[simp] theorem contains_ofList (names : List String) (x : String) :
    (ofList names).contains x = names.contains x := by
  rw [ofList, contains_foldl_insert]
  exact Bool.or_false _

end NameSet

/-- A finite map from names to values. -/
structure NameMap (α : Type) where
  entries : List (String × α)
  ascending : (entries.map Prod.fst).Pairwise (· < ·) := by exact .nil
  deriving DecidableEq

namespace NameMap

variable {α : Type}

/-- Puts an entry into its place in an ascending list, in the place of one with the same name. -/
def place (name : String) (a : α) : List (String × α) → List (String × α)
  | [] => [(name, a)]
  | e :: rest =>
      if name < e.1 then (name, a) :: e :: rest
      else if name = e.1 then (name, a) :: rest
      else e :: place name a rest

/-- The names of the entries are placed as names of a set are. -/
theorem map_fst_place (name : String) (a : α) (entries : List (String × α)) :
    (place name a entries).map Prod.fst = NameSet.place name (entries.map Prod.fst) := by
  induction entries with
  | nil => rfl
  | cons e rest ih => grind [place, NameSet.place]

def empty : NameMap α := ⟨[], .nil⟩

instance : Inhabited (NameMap α) := ⟨empty⟩

def insert (m : NameMap α) (name : String) (a : α) : NameMap α :=
  ⟨place name a m.entries, map_fst_place name a m.entries ▸ NameSet.place_ascending m.ascending⟩

def get? (m : NameMap α) (name : String) : Option α :=
  (m.entries.find? (·.1 = name)).map (·.2)

/-- The map of a list of entries; of several with one name the last counts. -/
def ofList (entries : List (String × α)) : NameMap α :=
  entries.foldl (fun m e => m.insert e.1 e.2) empty

theorem ext {m m' : NameMap α} (h : m.entries = m'.entries) : m = m' := by
  cases m
  cases m'
  cases h
  rfl

/-- An entry whose name is above all others is placed behind them. -/
theorem place_of_forall_lt {name : String} {a : α} {entries : List (String × α)}
    (h : ∀ e ∈ entries, e.1 < name) : place name a entries = entries ++ [(name, a)] := by
  induction entries with
  | nil => rfl
  | cons e rest ih =>
      obtain ⟨he, hrest⟩ := List.forall_mem_cons.mp h
      have hne : name ≠ e.1 := fun heq => String.lt_irrefl _ (heq ▸ he)
      rw [place, if_neg (String.lt_asymm he), if_neg hne, ih hrest, List.cons_append]

theorem entries_foldl_insert {m : NameMap α} {entries : List (String × α)}
    (h : ((m.entries ++ entries).map Prod.fst).Pairwise (· < ·)) :
    (entries.foldl (fun m e => m.insert e.1 e.2) m).entries = m.entries ++ entries := by
  induction entries generalizing m with
  | nil => simp
  | cons e rest ih =>
      have hlast : ∀ x ∈ m.entries, x.1 < e.1 := by
        intro x hx
        rw [List.map_append, List.pairwise_append] at h
        exact h.2.2 x.1 (List.mem_map_of_mem hx) e.1 (by simp)
      have hinsert : (m.insert e.1 e.2).entries = m.entries ++ [e] := place_of_forall_lt hlast
      rw [List.foldl_cons, ih (by simpa [hinsert] using h), hinsert, List.append_assoc,
        List.singleton_append]

/-- A map is made of its entries again. -/
@[simp] theorem ofList_entries (m : NameMap α) : ofList m.entries = m :=
  ext (entries_foldl_insert (m := empty) m.ascending)

theorem find?_place (name x : String) (a : α) (entries : List (String × α)) :
    ((place name a entries).find? (·.1 = x)).map (·.2) =
      if x = name then some a else (entries.find? (·.1 = x)).map (·.2) := by
  induction entries with
  | nil => by_cases h : x = name <;> simp [place, h, eq_comm]
  | cons e rest ih =>
      rw [place]
      split
      · by_cases h : x = name
        · simp [h]
        · simp [h, List.find?_cons, Ne.symm h]
      · split
        · next heq =>
            by_cases h : x = name
            · simp [h]
            · simp [h, Ne.symm h, ← heq]
        · next hne =>
            by_cases he : e.1 = x
            · subst he
              simp [Ne.symm hne]
            · simp [he, ih]

@[simp] theorem get?_insert (m : NameMap α) (name x : String) (a : α) :
    (m.insert name a).get? x = if x = name then some a else m.get? x :=
  find?_place name x a m.entries

end NameMap

end ShardKeys
