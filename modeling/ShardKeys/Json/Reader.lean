import ShardKeys.Json.Value

/-!
Reading JSON strictly. Between tokens there may be spaces, tabs, line feeds and carriage returns; a
string holds no raw control character; a number has no leading zero; nothing follows the value.
-/

namespace ShardKeys.Json

def isSpace (c : Char) : Bool :=
  c = ' ' || c = '\t' || c = '\n' || c = '\r'

def skipSpace (cs : List Char) : List Char :=
  cs.dropWhile isSpace

/-- The value of a hexadecimal digit of either case. -/
def hexValue? (c : Char) : Option Nat :=
  if c.isDigit then some (c.toNat - '0'.toNat)
  else if 'a' ≤ c && c ≤ 'f' then some (c.toNat - 'a'.toNat + 10)
  else if 'A' ≤ c && c ≤ 'F' then some (c.toNat - 'A'.toNat + 10)
  else none

/-- The code that four hexadecimal digits name. -/
def code? (a b c d : Char) : Option Nat := do
  return (((← hexValue? a) * 16 + (← hexValue? b)) * 16 + (← hexValue? c)) * 16 + (← hexValue? d)

def isHighHalf (code : Nat) : Bool :=
  0xD800 ≤ code && code < 0xDC00

def isLowHalf (code : Nat) : Bool :=
  0xDC00 ≤ code && code < 0xE000

/-- The character that a letter behind a backslash stands for. -/
def escaped? : Char → Option Char
  | '\x22' => some '\x22'
  | '\\' => some '\\'
  | '/' => some '/'
  | 'b' => some '\x08'
  | 'f' => some '\x0c'
  | 'n' => some '\n'
  | 'r' => some '\r'
  | 't' => some '\t'
  | _ => none

def unitOfCode (code : Nat) : TextUnit :=
  if isHighHalf code || isLowHalf code then .half code else .char (Char.ofNat code)

/-- The character of a surrogate pair. -/
def pairChar (high low : Nat) : Char :=
  Char.ofNat (0x10000 + (high - 0xD800) * 0x400 + (low - 0xDC00))

/-- Joins a high half and a low half right behind it. -/
def joinPairs : Text → Text
  | .half high :: .half low :: rest =>
      if isHighHalf high && isLowHalf low then .char (pairChar high low) :: joinPairs rest
      else .half high :: joinPairs (.half low :: rest)
  | u :: rest => u :: joinPairs rest
  | [] => []

/-- The units of a string whose opening quote was read, and what follows the closing quote. -/
def readUnits : List Char → Option (Text × List Char)
  | [] => none
  | '\x22' :: rest => some ([], rest)
  | '\\' :: 'u' :: a :: b :: c :: d :: rest =>
      match code? a b c d with
      | none => none
      | some code => (readUnits rest).map fun (t, after) => (unitOfCode code :: t, after)
  | '\\' :: letter :: rest =>
      match escaped? letter with
      | none => none
      | some c => (readUnits rest).map fun (t, after) => (.char c :: t, after)
  | c :: rest =>
      if c.toNat < 0x20 then none
      else (readUnits rest).map fun (t, after) => (.char c :: t, after)

def readText (cs : List Char) : Option (Text × List Char) :=
  (readUnits cs).map fun (t, after) => (joinPairs t, after)

/-- One or more digits, and what follows them. -/
def readDigits (cs : List Char) : Option (List Char × List Char) :=
  match cs.takeWhile Char.isDigit with
  | [] => none
  | digits => some (digits, cs.dropWhile Char.isDigit)

/-- Digits without a leading zero, unless zero is the only one. -/
def readWhole (cs : List Char) : Option (List Char × List Char) :=
  match readDigits cs with
  | some ('0' :: _ :: _, _) => none
  | result => result

/-- A point and digits, or nothing. -/
def readFraction (cs : List Char) : Option (List Char × List Char) :=
  match cs with
  | '.' :: rest => (readDigits rest).map fun (digits, after) => ('.' :: digits, after)
  | _ => some ([], cs)

/-- An exponent with its mark and sign, or nothing. -/
def readExponent (cs : List Char) : Option (List Char × List Char) :=
  match cs with
  | mark :: rest =>
      if mark = 'e' || mark = 'E' then
        match rest with
        | sign :: digits =>
            if sign = '+' || sign = '-' then
              (readDigits digits).map fun (digits, after) => (mark :: sign :: digits, after)
            else (readDigits rest).map fun (digits, after) => (mark :: digits, after)
        | [] => none
      else some ([], cs)
  | [] => some ([], [])

/-- A number without its sign. -/
def readMagnitude (negative : Bool) (cs : List Char) : Option (Number × List Char) := do
  let (whole, cs) ← readWhole cs
  let (fraction, cs) ← readFraction cs
  let (exponent, cs) ← readExponent cs
  if fraction.isEmpty && exponent.isEmpty then
    return (.integer negative (Nat.ofDigitChars 10 whole 0), cs)
  else
    let sign := if negative then ['-'] else []
    return (.fractional (String.ofList (sign ++ whole ++ fraction ++ exponent)), cs)

def readNumber (cs : List Char) : Option (Number × List Char) :=
  match cs with
  | '-' :: rest => readMagnitude true rest
  | _ => readMagnitude false cs

mutual

/-- Reads a value with blanks before it; `fuel` bounds the nesting and the number of items. -/
def readValue : Nat → List Char → Option (Value × List Char)
  | 0, _ => none
  | fuel + 1, cs =>
      match skipSpace cs with
      | 'n' :: 'u' :: 'l' :: 'l' :: rest => some (.null, rest)
      | 't' :: 'r' :: 'u' :: 'e' :: rest => some (.bool true, rest)
      | 'f' :: 'a' :: 'l' :: 's' :: 'e' :: rest => some (.bool false, rest)
      | '\x22' :: rest => (readText rest).map fun (t, after) => (.string t, after)
      | '[' :: rest =>
          match skipSpace rest with
          | ']' :: after => some (.array [], after)
          | rest => (readItems fuel rest).map fun (items, after) => (.array items, after)
      | '\x7b' :: rest =>
          match skipSpace rest with
          | '\x7d' :: after => some (.object [], after)
          | rest => (readMembers fuel rest).map fun (members, after) => (.object members, after)
      | rest => (readNumber rest).map fun (n, after) => (.number n, after)

/-- One or more items, separated by commas, and the closing bracket. -/
def readItems : Nat → List Char → Option (List Value × List Char)
  | 0, _ => none
  | fuel + 1, cs =>
      match readValue fuel cs with
      | none => none
      | some (v, rest) =>
          match skipSpace rest with
          | ',' :: rest => (readItems fuel rest).map fun (items, after) => (v :: items, after)
          | ']' :: after => some ([v], after)
          | _ => none

/-- One or more members, separated by commas, and the closing brace. -/
def readMembers : Nat → List Char → Option (List (Text × Value) × List Char)
  | 0, _ => none
  | fuel + 1, cs =>
      match skipSpace cs with
      | '\x22' :: rest =>
          match readText rest with
          | none => none
          | some (name, rest) =>
              match skipSpace rest with
              | ':' :: rest =>
                  match readValue fuel rest with
                  | none => none
                  | some (v, rest) =>
                      match skipSpace rest with
                      | ',' :: rest =>
                          (readMembers fuel rest).map fun (members, after) =>
                            ((name, v) :: members, after)
                      | '\x7d' :: after => some ([(name, v)], after)
                      | _ => none
              | _ => none
      | _ => none

end

/-- The value that a text holds and that nothing but blanks surrounds. Every call of a reader but
the outermost follows a character that was read, two at most follow the same one. -/
def parse (s : String) : Option Value :=
  let cs := s.toList
  match readValue (2 * cs.length + 2) cs with
  | some (v, rest) => if (skipSpace rest).isEmpty then some v else none
  | none => none

end ShardKeys.Json
