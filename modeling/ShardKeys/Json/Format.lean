import ShardKeys.Json.Reader
import ShardKeys.Json.Writer

/-!
Types with a JSON form. A record is an object with known members, or an array of them in order.
Members that are unknown are passed over unless the record is closed; a known member may not be
given twice.
-/

namespace ShardKeys.Json

/-- A type whose values are written as JSON and read from it. -/
class Format (α : Type) where
  toJson : α → Value
  ofJson? : Value → Option α

/-- The compact text of a value. -/
def write {α : Type} [Format α] (a : α) : String :=
  (Format.toJson a).compact

/-- The value that a text stands for. -/
def read? (α : Type) [Format α] (s : String) : Option α :=
  (parse s).bind Format.ofJson?

instance : Format Bool where
  toJson := .bool
  ofJson?
    | .bool b => some b
    | _ => none

instance : Format String where
  toJson := .ofString
  ofJson?
    | .string t => t.toString?
    | _ => none

/-- The integer that a value stands for. -/
def Value.toInt? : Value → Option Int
  | .number n => n.toInt?
  | _ => none

instance : Format Int64 where
  toJson i := .number (.ofInt i.toInt)
  ofJson? v := v.toInt?.bind fun i =>
    if Int64.minValue.toInt ≤ i ∧ i ≤ Int64.maxValue.toInt then some (Int64.ofInt i) else none

instance : Format UInt64 where
  toJson n := .number (.ofInt n.toNat)
  ofJson? v := v.toInt?.bind fun i =>
    if 0 ≤ i ∧ i.toNat < UInt64.size then some (UInt64.ofNat i.toNat) else none

instance {α : Type} [Format α] : Format (List α) where
  toJson items := .array (items.map Format.toJson)
  ofJson?
    | .array items => items.mapM Format.ofJson?
    | _ => none

instance {α : Type} [Format α] : Format (Option α) where
  toJson
    | none => .null
    | some a => Format.toJson a
  ofJson?
    | .null => some none
    | v => (Format.ofJson? v).map some

/-- One of several words, each of which stands for a value. A word may also be given as the only
member of an object, with nothing in it. -/
def wordOf? {α : Type} (words : List (String × α)) : Value → Option α
  | .string t => t.toString?.bind fun word => words.lookup word
  | .object [(t, .null)] => t.toString?.bind fun word => words.lookup word
  | _ => none

/-- The members of a record by name. -/
structure Record where
  members : List (String × Value)
  /-- The members were given in order and not by name. -/
  positional : Bool
  deriving Inhabited

namespace Record

/-- The name and value of a member whose name is text. -/
def named? (member : Text × Value) : Option (String × Value) :=
  member.1.toString?.map fun name => (name, member.2)

/-- Reads a record with the given members; a closed one has no others. -/
def ofValue? (names : List String) (closed : Bool) : Value → Option Record
  | .array items =>
      if items.length ≤ names.length then some ⟨names.zip items, true⟩ else none
  | .object members => do
      let members ← members.mapM named?
      let known := members.filter fun m => names.contains m.1
      if (known.map (·.1)).Nodup ∧ (closed → known.length = members.length) then
        some ⟨known, false⟩
      else none
  | _ => none

def get? (r : Record) (name : String) : Option Value :=
  r.members.lookup name

/-- A member that must be there. -/
def required {α : Type} [Format α] (r : Record) (name : String) : Option α :=
  (r.get? name).bind Format.ofJson?

/-- A member that may be left out. -/
def withDefault {α : Type} [Format α] (r : Record) (name : String) (default : α) : Option α :=
  match r.get? name with
  | none => some default
  | some v => Format.ofJson? v

end Record

/-- Reads an open record. -/
def recordOf? {α : Type} (names : List String) (build : Record → Option α) (v : Value) : Option α :=
  (Record.ofValue? names false v).bind build

end ShardKeys.Json
