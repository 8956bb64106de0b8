import ShardKeys.CommandLine.Item
import ShardKeys.Dialect.Basic
import ShardKeys.Format.Sequences
import ShardKeys.Sequence.Declaration

/-!
Invocations: what a command line and its environment ask for. Arguments are looked at in order, and
the first one that is wrong, or that asks for the version or for help, decides. Global options stand
before the command; one that is absent may come from the environment.
-/

namespace ShardKeys.CommandLine

/-- Why nothing is run. -/
inductive Stop where
  | version
  | help
  | usage
  deriving DecidableEq, Repr

inductive ScriptKind where
  | create
  | drop
  | update
  | recreate
  deriving DecidableEq, Repr

/-- A wish for keys of a sequence. -/
structure KeyOrder where
  declaration : Declaration
  count : Nat
  deriving DecidableEq

inductive Command where
  | script (kind : ScriptKind) (path : String)
  | allocate (order : KeyOrder)
  deriving DecidableEq

structure Invocation where
  dialect : Dialect
  /-- The most statements of a batch; zero means that there is no limit. -/
  batchLimit : Nat
  command : Command
  deriving DecidableEq

/-- Variables of the environment by name. -/
abbrev Environment := List (String × String)

/-- A number of statements or keys. -/
def count? (s : String) : Option Nat :=
  (Text.readUnsigned (UInt64.size - 1) s.toList).toOption

def int64? (s : String) : Option Int64 :=
  (Text.readSigned 0x7FFFFFFFFFFFFFFF s.toList).map Int64.ofInt

def switch? : String → Option Bool
  | "true" => some true
  | "false" => some false
  | _ => none

def surface? (s : String) : Option Surface :=
  Surface.words.lookup s

/-- Sets an option that may be given once. -/
def setOnce {α : Type} (old new : Option α) : Except Stop (Option α) :=
  match old, new with
  | none, some a => .ok (some a)
  | _, _ => .error .usage

/-- Global options as far as they are given. -/
structure Globals where
  surface : Option Surface := none
  batchLimit : Option Nat := none
  noBatch : Option Bool := none
  noForeignKeys : Option Bool := none
  deriving DecidableEq, Inhabited

namespace Globals

def valued : List String := ["dialect", "max-batch-statements"]

/-- Takes a long option. -/
def set (g : Globals) (name : String) (value : Option String) : Except Stop Globals :=
  match name, value with
  | "dialect", some v => do return { g with surface := ← setOnce g.surface (surface? v) }
  | "max-batch-statements", some v =>
      do return { g with batchLimit := ← setOnce g.batchLimit (count? v) }
  | "no-batch", none => do return { g with noBatch := ← setOnce g.noBatch (some true) }
  | "no-foreign-keys", none => do
      return { g with noForeignKeys := ← setOnce g.noForeignKeys (some true) }
  | "version", none => .error .version
  | "help", none => .error .help
  | _, _ => .error .usage

/-- The global options, the command and its arguments. -/
def read (g : Globals) : List String → Except Stop (Globals × String × List String)
  | [] => .error .usage
  | arg :: rest =>
      match _h : nextItem valued arg rest with
      | (.word w, behind) => .ok (g, w, behind)
      | (.long name value, behind) =>
          match g.set name value with
          | .error stop => .error stop
          | .ok g => read g behind
      | (.short 'V', _) => .error .version
      | (.short 'h', _) => .error .help
      | (.short _, _) => .error .usage
      | (.escape, _) => .error .usage
      | (.lacksValue _, _) => .error .usage
termination_by args => args.length
decreasing_by
  have := length_nextItem_le valued arg rest
  simp_all only [List.length_cons]
  omega

/-- An option that is given, or else the value of a variable, or else a default. -/
def orVariable {α : Type} (given : Option α) (env : Environment) (name : String)
    (parse : String → Option α) (default : α) : Except Stop α :=
  match given, env.lookup name with
  | some a, _ => .ok a
  | none, none => .ok default
  | none, some text =>
      match parse text with
      | some a => .ok a
      | none => .error .usage

/-- The dialect and the limit of a batch. -/
def resolve (g : Globals) (env : Environment) : Except Stop (Dialect × Nat) := do
  let surface ← orVariable g.surface env "REVKEY_DIALECT" surface? .googleSql
  let limit ← orVariable g.batchLimit env "REVKEY_MAX_BATCH_STATEMENTS" count? 0
  let noBatch ← orVariable g.noBatch env "REVKEY_NO_BATCH" switch? false
  let noForeignKeys ← orVariable g.noForeignKeys env "REVKEY_NO_FOREIGN_KEYS" switch? false
  return ({ surface, capabilities := { foreignKeys := !noForeignKeys, batches := !noBatch } },
    limit)

end Globals

/-- The only word among the arguments of a command, which names a snapshot. -/
def readPath (path : Option String) : List String → Except Stop String
  | [] => match path with
      | some path => .ok path
      | none => .error .usage
  | arg :: rest =>
      match nextItem [] arg rest with
      | (.word w, _) =>
          if path.isSome || w.isEmpty then .error .usage else readPath (some w) rest
      | (.escape, _) =>
          match path, rest with
          | some path, [] => .ok path
          | none, [w] => if w.isEmpty then .error .usage else .ok w
          | _, _ => .error .usage
      | (.long "help" none, _) => .error .help
      | (.short 'h', _) => .error .help
      | _ => .error .usage

/-- The options of a wish for keys, as far as they are given. -/
structure KeyOptions where
  sequence : Option String := none
  count : Option Nat := none
  start : Option Int64 := none
  poolSize : Option Int64 := none
  excluded : Option String := none
  deriving DecidableEq, Inhabited

namespace KeyOptions

def valued : List String :=
  ["sequence", "count", "start-with-counter", "pool-size", "exclude-range"]

def set (o : KeyOptions) (name : String) (value : Option String) : Except Stop KeyOptions :=
  match name, value with
  | "sequence", some v => do return { o with sequence := ← setOnce o.sequence (some v) }
  | "count", some v => do return { o with count := ← setOnce o.count (count? v) }
  | "start-with-counter", some v => do return { o with start := ← setOnce o.start (int64? v) }
  | "pool-size", some v => do return { o with poolSize := ← setOnce o.poolSize (int64? v) }
  | "exclude-range", some v => do return { o with excluded := ← setOnce o.excluded (some v) }
  | "help", none => .error .help
  | _, _ => .error .usage

/-- The wish, with what is not said by default. Only the sequence must be named. -/
def toOrder (o : KeyOptions) : Except Stop KeyOrder :=
  match o.sequence with
  | none => .error .usage
  | some name =>
      let default : Declaration := {}
      .ok {
        declaration := {
          name
          start := o.start.getD default.start
          poolSize := o.poolSize.getD default.poolSize
          excluded := o.excluded.getD default.excluded }
        count := o.count.getD 10 }

def read (o : KeyOptions) : List String → Except Stop KeyOrder
  | [] => o.toOrder
  | arg :: rest =>
      match _h : nextItem valued arg rest with
      | (.long name value, behind) =>
          match o.set name value with
          | .error stop => .error stop
          | .ok o => read o behind
      | (.escape, []) => o.toOrder
      | (.short 'h', _) => .error .help
      | _ => .error .usage
termination_by args => args.length
decreasing_by
  have := length_nextItem_le valued arg rest
  simp_all only [List.length_cons]
  omega

end KeyOptions

/-- The kinds of scripts by command. -/
def scriptKind? : String → Option ScriptKind
  | "create" => some .create
  | "drop" => some .drop
  | "update" => some .update
  | "recreate" => some .recreate
  | _ => none

/-- Whether a word is a command. -/
def isCommand (w : String) : Bool :=
  (scriptKind? w).isSome || w = "allocate" || w = "help"

def readCommand (command : String) (args : List String) : Except Stop Command :=
  match scriptKind? command with
  | some kind => (readPath none args).map (.script kind)
  | none =>
      if command = "allocate" then (KeyOptions.read {} args).map .allocate
      else if command = "help" && args.all isCommand && args.length ≤ 1 then .error .help
      else .error .usage

namespace Invocation

/-- Reads a command line, without the name of the program. -/
def read (args : List String) (env : Environment) : Except Stop Invocation := do
  let (globals, command, args) ← Globals.read {} args
  let command ← readCommand command args
  let (dialect, batchLimit) ← globals.resolve env
  return { dialect, batchLimit, command }

end Invocation

end ShardKeys.CommandLine
