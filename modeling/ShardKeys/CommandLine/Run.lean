import ShardKeys.CommandLine.Invocation
import ShardKeys.CommandLine.Path
import ShardKeys.Script.Style
import ShardKeys.Error
import ShardKeys.Format.Snapshot
import ShardKeys.Pool.Memory

/-!
Running an invocation. The result is a list of lines or one failure; nothing is printed before
everything has succeeded.
-/

namespace ShardKeys.CommandLine

inductive Failure where
  | zeroCount
  | library (error : Error)
  /-- The pool came to no end. -/
  | noKey
  | unopened (path : String)
  | unreadable (path : String)
  | badSnapshot (path : String)
  deriving DecidableEq

namespace Failure

def text : Failure → String
  | zeroCount => "--count must be greater than 0"
  | library error => error.message
  | noKey => "sequence yields no usable counter"
  | unopened path => "failed to open snapshot `" ++ path ++ "`"
  | unreadable path =>
      if isStandardInput path then "failed to read snapshot from stdin"
      else "failed to read snapshot `" ++ path ++ "`"
  | badSnapshot path => "invalid snapshot `" ++ path ++ "`"

/-- The first line of the text. -/
def message (f : Failure) : String :=
  String.ofList (f.text.toList.takeWhile (· ≠ '\n'))

end Failure

/-- Any fault as a failure of the run. -/
def orFail {ε α : Type} (toError : ε → Error) (result : Except ε α) : Except Failure α :=
  result.mapError fun fault => .library (toError fault)

def failureOfKey (fault : KeyFault) : Failure :=
  match fault.error? with
  | some error => .library error
  | none => .noKey

/-- Keys of a sequence in memory, in decimals. -/
def allocateLines (dialect : Dialect) (order : KeyOrder) : Except Failure (List String) := do
  if order.count = 0 then throw .zeroCount
  let s ← orFail .configuration (order.declaration.validateFor dialect)
  let call := fun state : Generator × Memory => Generator.next Memory.source s state.1 state.2
  let series := Call.repeated call order.count ({ dialect }, {})
  match series.fault with
  | some fault => throw (failureOfKey fault)
  | none => return series.values.map fun key => toString key.toNat

/-- The schema that a snapshot declares. The sequences are checked before the tables. -/
def schemaOf (dialect : Dialect) (snapshot : Snapshot) : Except Failure Schema := do
  let sequences ← orFail .configuration (snapshot.sequences.mapM (·.validateFor dialect))
  let schema ← orFail .integrity (Schema.ofTables snapshot.tables)
  orFail .configuration (schema.declareAll sequences)

def styleOf (i : Invocation) (snapshot : Snapshot) : ScriptStyle :=
  let framing := (Framing.ofDialect i.dialect).withAfter snapshot.after
  { dialect := i.dialect
    framing := if h : 0 < i.batchLimit then framing.withLimit ⟨i.batchLimit, h⟩ else framing }

/-- The lines of a script. What a snapshot does not say of the database is missing there, except
that a drop then covers everything. -/
def scriptLines (i : Invocation) (kind : ScriptKind) (snapshot : Snapshot) :
    Except Failure (List String) := do
  let schema ← schemaOf i.dialect snapshot
  let style := styleOf i snapshot
  let live := snapshot.existing.getD {}
  let script := match kind, snapshot.existing with
    | .create, _ => style.createScript schema
    | .drop, some live => style.dropScriptFor schema live
    | .drop, none => style.dropScript schema
    | .update, _ => style.updateScript schema live
    | .recreate, _ => style.recreateScript schema live
  return (← orFail .unsupported script).lines

/-- The snapshot in what is found at a path. -/
def decodeSnapshot (path : String) (found : Found) : Except Failure Snapshot :=
  match found with
  | .nothing => .error (.unopened path)
  | .unreadable => .error (.unreadable path)
  | .bytes bytes =>
      match String.fromUTF8? bytes with
      | none => .error (.unreadable path)
      | some text =>
          match Snapshot.parse? text with
          | none => .error (.badSnapshot path)
          | some snapshot => .ok snapshot

/-- The path that an invocation reads from. -/
def Invocation.path? (i : Invocation) : Option String :=
  match i.command with
  | .script _ path => some path
  | .allocate _ => none

/-- The lines that an invocation prints, where `found` is what its path leads to. -/
def Invocation.run (i : Invocation) (found : Found) : Except Failure (List String) :=
  match i.command with
  | .allocate order => allocateLines i.dialect order
  | .script kind path => do scriptLines i kind (← decodeSnapshot path found)

def versionLine : String := "revkey 0.3.2"

def helpLine : String :=
  "usage: revkey [OPTIONS] create|drop|update|recreate SNAPSHOT, or revkey [OPTIONS] allocate --sequence NAME"

/-- What a process leaves behind. -/
structure Exit where
  code : UInt8
  stdout : String := ""
  message : Option String := none
  deriving DecidableEq

/-- Lines as a text, each with a line feed. -/
def unlines (lines : List String) : String :=
  String.join (lines.map (· ++ "\n"))

def Exit.ofStop : Stop → Exit
  | .version => { code := 0, stdout := unlines [versionLine] }
  | .help => { code := 0, stdout := unlines [helpLine] }
  | .usage => { code := 2 }

def Exit.ofResult : Except Failure (List String) → Exit
  | .ok lines => { code := 0, stdout := unlines lines }
  | .error failure => { code := 1, message := some failure.message }

/-- What a path leads to, where `stdin` is standard input and `files` holds everything else. -/
def find (stdin : Found) (files : String → Found) (path : String) : Found :=
  if isStandardInput path then stdin else files path

/-- The whole course of a process. -/
def exitOf (args : List String) (env : Environment) (stdin : Found) (files : String → Found) :
    Exit :=
  match Invocation.read args env with
  | .error stop => .ofStop stop
  | .ok i => .ofResult (i.run ((i.path?.map (find stdin files)).getD .nothing))

end ShardKeys.CommandLine
