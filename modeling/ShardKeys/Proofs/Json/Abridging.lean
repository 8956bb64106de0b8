import ShardKeys.Json.Format
import ShardKeys.Proofs.Fallible
import ShardKeys.Proofs.Json.Reading

/-! # Leaving out what a reader assumes

A member of a record that has a default need not be written if it holds the default. So a value has
several forms: the one that is written, and those with such members left out, in the record itself
or in a record within it.
-/

namespace ShardKeys.Json

/-- A type with the forms of its values. -/
class Abridging (α : Type) where
  /-- `Form a v` says that `v` is the JSON form of `a`, possibly less members that hold their
  default. -/
  Form : α → Value → Prop

/-- Forms that are read as the value that they are forms of. -/
class LawfulAbridging (α : Type) [Format α] [Abridging α] : Prop where
  form_toJson : ∀ a : α, Abridging.Form a (Format.toJson a)
  plain : ∀ {a : α} {v : Value}, Abridging.Form a v → v.Plain
  ofJson?_form : ∀ {a : α} {v : Value}, Abridging.Form a v → Format.ofJson? v = some a

open Abridging LawfulAbridging

variable {α : Type} [Format α] [Abridging α] [LawfulAbridging α]

theorem read?_compact {a : α} {v : Value} (h : Form a v) : read? α v.compact = some a := by
  rw [read?, parse_compact (plain h), Option.bind_some, ofJson?_form h]

/-! ## Values without members -/

/-- The forms of values that are written in one way only. -/
@[reducible] def Abridging.exact (α : Type) [Format α] : Abridging α where
  Form a v := v = Format.toJson a

theorem LawfulAbridging.exact {α : Type} [Format α] (hplain : ∀ a : α, (Format.toJson a).Plain)
    (hread : ∀ a : α, Format.ofJson? (Format.toJson a) = some a) :
    @LawfulAbridging α _ (.exact α) :=
  letI := Abridging.exact α
  { form_toJson := fun _ => rfl
    plain := fun h => h ▸ hplain _
    ofJson?_form := fun h => h ▸ hread _ }

instance : Abridging Bool := .exact Bool

instance : LawfulAbridging Bool := .exact .bool fun _ => rfl

instance : Abridging String := .exact String

instance : LawfulAbridging String := .exact .string Text.toString?_ofString

instance : Abridging Int64 := .exact Int64

instance : LawfulAbridging Int64 :=
  .exact (fun _ => .integer _ _) fun i => by
    simp only [Format.toJson, Format.ofJson?, Value.toInt?, Number.toInt?_ofInt, Option.bind_some]
    rw [if_pos ⟨i.minValue_le_toInt, i.toInt_le⟩, Int64.ofInt_toInt]

instance : Abridging UInt64 := .exact UInt64

instance : LawfulAbridging UInt64 :=
  .exact (fun _ => .integer _ _) fun n => by
    simp only [Format.toJson, Format.ofJson?, Value.toInt?, Number.toInt?_ofInt, Option.bind_some]
    rw [if_pos ⟨Int.natCast_nonneg _, n.toNat_lt_size⟩, Int.toNat_natCast, UInt64.ofNat_toNat]

/-! ## Lists and options -/

instance : Abridging (List α) where
  Form items v := ∃ values, v = .array values ∧ List.Forall₂ Form items values

instance : LawfulAbridging (List α) where
  form_toJson items :=
    ⟨_, rfl, by simp [List.forall₂_map_right_iff, List.forall₂_same, form_toJson]⟩
  plain := by
    rintro items v ⟨values, rfl, h⟩
    exact .array (forall_mem_of_forall₂ h fun _ _ => plain)
  ofJson?_form := by
    rintro items v ⟨values, rfl, h⟩
    exact mapM_eq_some_of_forall₂ (h.imp fun _ _ => ofJson?_form)

instance : Abridging (Option α) where
  Form
    | none, v => v = .null
    | some a, v => Form a v

/-- A type none of whose values is null. -/
class NeverNull (α : Type) [Format α] : Prop where
  ofJson?_null : Format.ofJson? (α := α) .null = none

instance : NeverNull String := ⟨rfl⟩

instance : NeverNull (List α) := ⟨rfl⟩

instance [NeverNull α] : LawfulAbridging (Option α) where
  form_toJson
    | none => rfl
    | some a => form_toJson a
  plain := by
    rintro (_ | a) v h
    · exact h ▸ .null
    · exact plain (α := α) h
  ofJson?_form := by
    rintro (_ | a) v h
    · exact h ▸ rfl
    · have hread := ofJson?_form (α := α) h
      cases v with
      | null => simp [NeverNull.ofJson?_null] at hread
      | _ => exact congrArg (Option.map some) hread

/-! ## Records -/

/-- A member of a record: the value that is written for it, the forms of that value, when it need
not be written, and what it is for a record to give the value back. -/
structure Member where
  name : String
  written : Value
  Form : Value → Prop
  Omissible : Prop
  Found : Record → Prop

namespace Member

/-- The written value is a form, forms are plain, and what may be there or be missing is found. -/
structure Lawful (m : Member) : Prop where
  form_written : m.Form m.written
  plain : ∀ {v}, m.Form v → v.Plain
  found_of_form : ∀ {r v}, r.get? m.name = some v → m.Form v → m.Found r
  found_of_omissible : ∀ {r}, r.get? m.name = none → m.Omissible → m.Found r

section Kinds

variable {α : Type} [Format α] [Abridging α]

/-- A member that must be written. -/
def required (name : String) (a : α) : Member where
  name := name
  written := Format.toJson a
  Form := Abridging.Form a
  Omissible := False
  Found r := r.required name = some a

/-- A member that may be left out if it holds the default. -/
def optional (name : String) (default a : α) : Member where
  name := name
  written := Format.toJson a
  Form := Abridging.Form a
  Omissible := a = default
  Found r := r.withDefault name default = some a

@[simp] theorem found_required {name : String} {a : α} {r : Record} :
    (required name a).Found r ↔ r.required name = some a := .rfl

@[simp] theorem found_optional {name : String} {default a : α} {r : Record} :
    (optional name default a).Found r ↔ r.withDefault name default = some a := .rfl

variable [LawfulAbridging α]

@[simp] theorem lawful_required (name : String) (a : α) : (required name a).Lawful where
  form_written := form_toJson a
  plain := LawfulAbridging.plain
  found_of_form {r v} hget hform := by
    rw [found_required, Record.required, show r.get? name = some v from hget]
    exact ofJson?_form hform
  found_of_omissible _ h := h.elim

@[simp] theorem lawful_optional (name : String) (default a : α) :
    (optional name default a).Lawful where
  form_written := form_toJson a
  plain := LawfulAbridging.plain
  found_of_form {r v} hget hform := by
    rw [found_optional, Record.withDefault, show r.get? name = some v from hget]
    exact ofJson?_form hform
  found_of_omissible {r} hget hdefault := by
    rw [found_optional, Record.withDefault, show r.get? name = none from hget,
      show a = default from hdefault]

end Kinds

/-- `Keeps ms kept` says that `kept` has every member of `ms` in one of its forms, less some that
may be left out. -/
inductive Keeps : List Member → List (String × Value) → Prop where
  | nil : Keeps [] []
  | keep {m ms v kept} (form : m.Form v) (later : Keeps ms kept) :
      Keeps (m :: ms) ((m.name, v) :: kept)
  | leaveOut {m ms kept} (omissible : m.Omissible) (later : Keeps ms kept) : Keeps (m :: ms) kept

variable {m : Member} {ms : List Member} {kept : List (String × Value)}

theorem keeps_written (h : ∀ m ∈ ms, m.Lawful) :
    Keeps ms (ms.map fun m => (m.name, m.written)) := by
  induction ms with
  | nil => exact .nil
  | cons m ms ih =>
      obtain ⟨hm, hms⟩ := List.forall_mem_cons.mp h
      exact .keep hm.form_written (ih hms)

namespace Keeps

theorem names (h : Keeps ms kept) : (kept.map (·.1)).Sublist (ms.map (·.name)) := by
  induction h with
  | nil => exact .slnil
  | keep _ _ ih => exact ih.cons_cons _
  | leaveOut _ _ ih => exact ih.cons _

theorem plain (h : Keeps ms kept) (hlawful : ∀ m ∈ ms, m.Lawful) : ∀ e ∈ kept, e.2.Plain := by
  induction h with
  | nil => simp
  | keep form _ ih =>
      obtain ⟨hm, hms⟩ := List.forall_mem_cons.mp hlawful
      exact List.forall_mem_cons.mpr ⟨hm.plain form, ih hms⟩
  | leaveOut _ _ ih => exact ih (List.forall_mem_cons.mp hlawful).2

theorem lookup_eq_none (h : Keeps ms kept) {name : String} (hname : name ∉ ms.map (·.name)) :
    kept.lookup name = none := by
  rw [List.lookup_eq_none_iff]
  intro e he
  have hmem : e.1 ∈ ms.map (·.name) := h.names.subset (List.mem_map_of_mem he)
  exact bne_iff_ne.mpr fun heq => hname (heq ▸ hmem)

/-- A member is kept in one of its forms, or it is left out. -/
theorem lookup (h : Keeps ms kept) (hnodup : (ms.map (·.name)).Nodup) (hm : m ∈ ms) :
    (∃ v, kept.lookup m.name = some v ∧ m.Form v) ∨ (kept.lookup m.name = none ∧ m.Omissible) := by
  induction h with
  | nil => simp at hm
  | @keep m' ms v kept form later ih =>
      obtain ⟨hnew, hnodup⟩ := List.nodup_cons.mp hnodup
      rcases List.mem_cons.mp hm with rfl | hm
      · exact .inl ⟨v, List.lookup_cons_self, form⟩
      · have hmem : m.name ∈ ms.map (·.name) := List.mem_map_of_mem hm
        have hne : m.name ≠ m'.name := by
          intro heq
          rw [heq] at hmem
          exact hnew hmem
        rw [List.lookup_cons, beq_false_of_ne hne]
        exact ih hnodup hm
  | @leaveOut m' ms kept omissible later ih =>
      obtain ⟨hnew, hnodup⟩ := List.nodup_cons.mp hnodup
      rcases List.mem_cons.mp hm with rfl | hm
      · exact .inr ⟨later.lookup_eq_none hnew, omissible⟩
      · exact ih hnodup hm

theorem found (h : Keeps ms kept) (hnodup : (ms.map (·.name)).Nodup)
    (hlawful : ∀ m ∈ ms, m.Lawful) :
    ∀ m ∈ ms, m.Found ⟨kept, false⟩ := by
  intro m hm
  rcases h.lookup hnodup hm with ⟨v, hget, hform⟩ | ⟨hget, homissible⟩
  · exact (hlawful m hm).found_of_form hget hform
  · exact (hlawful m hm).found_of_omissible hget homissible

end Keeps

end Member

theorem Record.ofValue?_ofMembers {names : List String} {members : List (String × Value)}
    (h : (members.map (·.1)).Sublist names) (hnodup : names.Nodup) :
    ofValue? names false (.ofMembers members) = some ⟨members, false⟩ := by
  have hnamed : (members.map fun m => (Text.ofString m.1, m.2)).mapM named? = some members := by
    refine mapM_eq_some_of_forall₂ ?_
    simp [List.forall₂_map_right_iff, List.forall₂_same, named?]
  have hknown : members.filter (fun m => names.contains m.1) = members := by
    refine List.filter_eq_self.mpr fun m hm => ?_
    simpa using h.subset (List.mem_map_of_mem hm)
  simp only [ofValue?, Value.ofMembers, hnamed, Option.bind_eq_bind, Option.bind_some, hknown]
  rw [if_pos ⟨hnodup.sublist h, by simp⟩]

/-- A type whose values are written as records. -/
class Membered (α : Type) where
  members : α → List Member

/-- The forms of a record. -/
instance {α : Type} [Membered α] : Abridging α where
  Form a v := ∃ kept, v = .ofMembers kept ∧ Member.Keeps (Membered.members a) kept

open Membered

/-- Records are read from all of their forms if they are built from the members that they are
written with. -/
theorem LawfulAbridging.ofRecord {α : Type} [Format α] [Membered α] {names : List String}
    {build : Record → Option α} (hofJson? : ∀ v, Format.ofJson? v = recordOf? names build v)
    (hbuild : ∀ (a : α) (r : Record), r.positional = false → (∀ m ∈ members a, m.Found r) →
      build r = some a)
    (hnodup : names.Nodup := by decide)
    (hnames : ∀ a : α, (members a).map (·.name) = names := by exact fun _ => rfl)
    (hlawful : ∀ a : α, ∀ m ∈ members a, m.Lawful := by simp [Membered.members])
    (htoJson : ∀ a : α, Format.toJson a =
      .ofMembers ((members a).map fun m => (m.name, m.written)) := by
      exact fun _ => rfl) :
    LawfulAbridging α where
  form_toJson a := ⟨_, htoJson a, Member.keeps_written (hlawful a)⟩
  plain := by
    rintro a v ⟨kept, rfl, h⟩
    exact .object (h.plain (hlawful a))
  ofJson?_form := by
    rintro a v ⟨kept, rfl, h⟩
    have hfound := h.found (by rwa [hnames]) (hlawful a)
    rw [hofJson?, recordOf?, Record.ofValue?_ofMembers (hnames a ▸ h.names) hnodup,
      Option.bind_some, hbuild a _ rfl hfound]

/-- A value is read back from what is written for it, and from what is left when members that have a
default and hold it are left out of that. -/
def RoundTrips (α : Type) [Format α] [Abridging α] : Prop :=
  ∀ a : α, read? α (write a) = some a ∧ ∀ v, Abridging.Form a v → read? α v.compact = some a

theorem LawfulAbridging.roundTrips (α : Type) [Format α] [Abridging α] [LawfulAbridging α] :
    RoundTrips α :=
  fun a => ⟨read?_compact (form_toJson a), fun _ => read?_compact⟩

end ShardKeys.Json
