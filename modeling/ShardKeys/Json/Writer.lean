import ShardKeys.Json.Value

/-!
Writing JSON without blanks. Quotes, backslashes and control characters are escaped and nothing else
is.
-/

namespace ShardKeys.Json

/-- The hexadecimal digit of a value below sixteen. -/
def hexDigit (n : Nat) : Char :=
  Nat.digitChar n

/-- Four hexadecimal digits. -/
def hex4 (n : Nat) : List Char :=
  [hexDigit (n / 0x1000 % 16), hexDigit (n / 0x100 % 16), hexDigit (n / 0x10 % 16),
    hexDigit (n % 16)]

/-- The letter that stands for a character behind a backslash. -/
def shortEscapes : List (Char × Char) :=
  [('\x22', '\x22'), ('\\', '\\'), ('\x08', 'b'), ('\x0c', 'f'), ('\n', 'n'), ('\r', 'r'),
    ('\t', 't')]

def writeChar (c : Char) : List Char :=
  match shortEscapes.lookup c with
  | some letter => ['\\', letter]
  | none => if c.toNat < 0x20 then '\\' :: 'u' :: hex4 c.toNat else [c]

def writeUnit : TextUnit → List Char
  | .char c => writeChar c
  | .half code => '\\' :: 'u' :: hex4 code

def writeText (t : Text) : List Char :=
  '\x22' :: (t.flatMap writeUnit ++ ['\x22'])

def writeNumber : Number → List Char
  | .integer negative n => (if negative then ['-'] else []) ++ (toString n).toList
  | .fractional written => written.toList

mutual

def writeValue : Value → List Char
  | .null => "null".toList
  | .bool true => "true".toList
  | .bool false => "false".toList
  | .number n => writeNumber n
  | .string t => writeText t
  | .array [] => "[]".toList
  | .array (v :: rest) => '[' :: (writeValue v ++ writeItems rest)
  | .object [] => "\x7b\x7d".toList
  | .object ((name, v) :: rest) =>
      '\x7b' :: (writeText name ++ ':' :: (writeValue v ++ writeMembers rest))

/-- The items behind the first one, and the closing bracket. -/
def writeItems : List Value → List Char
  | [] => [']']
  | v :: rest => ',' :: (writeValue v ++ writeItems rest)

/-- The members behind the first one, and the closing brace. -/
def writeMembers : List (Text × Value) → List Char
  | [] => ['\x7d']
  | (name, v) :: rest => ',' :: (writeText name ++ ':' :: (writeValue v ++ writeMembers rest))

end

section Write

variable (v : Value) (name : Text) (items : List Value) (members : List (Text × Value))

@[simp] theorem writeValue_number (n : Number) : writeValue (.number n) = writeNumber n := rfl

@[simp] theorem writeValue_string (t : Text) : writeValue (.string t) = writeText t := rfl

@[simp] theorem writeValue_array_cons :
    writeValue (.array (v :: items)) = '[' :: (writeValue v ++ writeItems items) := rfl

@[simp] theorem writeValue_object_cons :
    writeValue (.object ((name, v) :: members)) =
      '\x7b' :: (writeText name ++ ':' :: (writeValue v ++ writeMembers members)) := rfl

@[simp] theorem writeItems_nil : writeItems [] = [']'] := rfl

@[simp] theorem writeItems_cons :
    writeItems (v :: items) = ',' :: (writeValue v ++ writeItems items) := rfl

@[simp] theorem writeMembers_nil : writeMembers [] = ['\x7d'] := rfl

@[simp] theorem writeMembers_cons :
    writeMembers ((name, v) :: members) =
      ',' :: (writeText name ++ ':' :: (writeValue v ++ writeMembers members)) := rfl

end Write

def Value.compact (v : Value) : String :=
  String.ofList (writeValue v)

end ShardKeys.Json
