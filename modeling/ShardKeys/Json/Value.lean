/-!
JSON values. Members of an object keep their order and may repeat a name. A string may name, by an
escape, half of a surrogate pair without the other half; such a string stands for no text.
-/

namespace ShardKeys.Json

/-- A character of a string, or half of a surrogate pair that stands alone. -/
inductive TextUnit where
  | char (c : Char)
  | half (code : Nat)
  deriving DecidableEq, Repr

/-- What a string holds. -/
abbrev Text := List TextUnit

namespace Text

def ofString (s : String) : Text :=
  s.toList.map .char

/-- The characters of a string without stray halves. -/
def chars? : Text → Option (List Char)
  | [] => some []
  | .char c :: rest => (chars? rest).map (c :: ·)
  | .half _ :: _ => none

def toString? (t : Text) : Option String :=
  t.chars?.map String.ofList

@[simp] theorem chars?_map_char (cs : List Char) : chars? (cs.map .char) = some cs := by
  induction cs with
  | nil => rfl
  | cons c cs ih => simp [chars?, ih]

@[simp] theorem toString?_ofString (s : String) : toString? (ofString s) = some s := by
  simp [toString?, ofString]

end Text

/-- A number as written: an integer, or something with a fraction or an exponent. -/
inductive Number where
  | integer (negative : Bool) (magnitude : Nat)
  | fractional (written : String)
  deriving DecidableEq, Repr

namespace Number

def ofInt (i : Int) : Number :=
  .integer (i < 0) i.natAbs

/-- The integer that a number stands for; a negative zero is none. -/
def toInt? : Number → Option Int
  | .integer false n => some n
  | .integer true 0 => none
  | .integer true n => some (-n)
  | .fractional _ => none

@[simp] theorem toInt?_ofInt (i : Int) : toInt? (ofInt i) = some i := by
  rcases i with n | n
  · rfl
  · simp only [ofInt, Int.natAbs_negSucc, Int.negSucc_lt_zero, decide_true, toInt?]
    rfl

end Number

inductive Value where
  | null
  | bool (b : Bool)
  | number (n : Number)
  | string (text : Text)
  | array (items : List Value)
  | object (members : List (Text × Value))
  deriving Repr, Inhabited

namespace Value

def ofString (s : String) : Value :=
  .string (.ofString s)

/-- An object from names and values. -/
def ofMembers (members : List (String × Value)) : Value :=
  .object (members.map fun (name, value) => (.ofString name, value))

end Value

end ShardKeys.Json
