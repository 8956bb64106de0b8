import ShardKeys.Dialect.Reserved
import ShardKeys.Sequence.Name

/-!
Identifiers in SQL text. An identifier stands for itself if it is a plain word that the surface does
not reserve; otherwise it is enclosed in quotes, and a quote inside it is written twice.
-/

namespace ShardKeys

namespace Surface

def quoteChar : Surface → Char
  | googleSql => '\x60'
  | postgreSql => '"'

def isWordStart (c : Char) : Bool :=
  c.isAlpha || c = '_'

def isWordRest (c : Char) : Bool :=
  c.isAlphanum || c = '_'

/-- A word of ASCII letters, digits and underscores that does not start with a digit. -/
def isPlainWord : List Char → Bool
  | [] => false
  | c :: rest => isWordStart c && rest.all isWordRest

/-- Letter case does not matter for a reserved word. -/
def isReserved (s : Surface) (word : List Char) : Bool :=
  s.reserved.contains (String.ofList (word.map Char.toUpper))

end Surface

/-- Every occurrence of `quote` written twice. -/
def doubled (quote : Char) (cs : List Char) : List Char :=
  cs.flatMap fun c => if c = quote then [c, c] else [c]

@[simp] theorem doubled_nil (quote : Char) : doubled quote [] = [] := rfl

namespace Dialect

def needsQuotes (d : Dialect) (ident : String) : Bool :=
  !Surface.isPlainWord ident.toList || d.surface.isReserved ident.toList

/-- An identifier as it appears in a statement. -/
def quote (d : Dialect) (ident : String) : String :=
  if d.needsQuotes ident then
    let q := d.surface.quoteChar
    String.ofList (q :: (doubled q ident.toList ++ [q]))
  else ident

/-- A list of identifiers, separated by `sep`. -/
def quoteAll (d : Dialect) (sep : String) (idents : List String) : String :=
  sep.intercalate (idents.map d.quote)

/-- The name of a sequence in a statement: each part is quoted by itself. -/
def quoteName (d : Dialect) (n : SequenceName) : String :=
  match n.schema with
  | some schema => d.quote schema ++ "." ++ d.quote n.name
  | none => d.quote n.name

end Dialect

end ShardKeys
