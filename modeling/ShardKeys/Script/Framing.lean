import ShardKeys.Dialect.Basic
import ShardKeys.Event

/-!
Batches of statements. A framed script runs its statements in batches, each between two markers, and
the statements that follow the batches after the last marker.
-/

namespace ShardKeys

/-- The lines of a script, and what its making leaves in the log. -/
structure Script where
  lines : List String := []
  events : List Event := []
  deriving DecidableEq

/-- How a script is put into batches. -/
structure Framing where
  framed : Bool := true
  /-- The most statements of a batch; without it there is a single batch. -/
  limit : Option { n : Nat // 0 < n } := none
  /-- Statements to run once the schema is changed. -/
  after : List String := []
  deriving DecidableEq

namespace Framing

def startMarker : String := "START BATCH DDL"

def runMarker : String := "RUN BATCH"

/-- Consecutive pieces of `size` elements, the last of which may be shorter. -/
def chunks {α : Type} (size : Nat) : List α → List (List α)
  | [] => []
  | a :: rest => (a :: rest.take (size - 1)) :: chunks size (rest.drop (size - 1))
termination_by xs => xs.length
decreasing_by
  simp only [List.length_drop, List.length_cons]
  omega

/-- The size of a batch of a script with `n` statements. -/
def batchSize (f : Framing) (n : Nat) : Nat :=
  match f.limit with
  | some limit => limit.val
  | none => max n 1

/-- The number of batches of a script with `n` statements: one at least, for a script without
any. -/
def batchCount (f : Framing) (n : Nat) : Nat :=
  max ((n + f.batchSize n - 1) / f.batchSize n) 1

/-- The batches of a script, in order. -/
def batches (f : Framing) (statements : List String) : List (List String) :=
  if statements.isEmpty then [[]] else chunks (f.batchSize statements.length) statements

def frameBatch (batch : List String) : List String :=
  startMarker :: (batch ++ [runMarker])

/-- The script of some statements. An update without statements leaves the database alone, so that
nothing follows it either. -/
def script (f : Framing) (mode : ScriptMode) (statements : List String) : Script :=
  if statements.isEmpty && mode = .update then {}
  else if !f.framed then { lines := statements ++ f.after }
  else
    { lines := (f.batches statements).flatMap frameBatch ++ f.after
      events := [.scriptFramed mode statements.length (f.batchCount statements.length)] }

/-- Framing as far as the dialect knows batches. -/
def ofDialect (d : Dialect) : Framing where
  framed := d.capabilities.batches

/-- The same framing with nothing after the batches. -/
def bare (f : Framing) : Framing :=
  { f with after := [] }

def withLimit (f : Framing) (limit : { n : Nat // 0 < n }) : Framing :=
  { f with limit := some limit }

/-- Adds statements to those that follow the batches. -/
def withAfter (f : Framing) (statements : List String) : Framing :=
  { f with after := f.after ++ statements }

end Framing

end ShardKeys
