import ShardKeys.CommandLine.Run

/-!
The program: reads its arguments, its environment and the one file it needs, and prints what comes
of them.
-/

namespace ShardKeys.CommandLine

/-- The variables that the program looks at. -/
def variableNames : List String :=
  ["REVKEY_DIALECT", "REVKEY_MAX_BATCH_STATEMENTS", "REVKEY_NO_BATCH", "REVKEY_NO_FOREIGN_KEYS"]

def readEnvironment : IO Environment :=
  variableNames.filterMapM fun name => do
    return (← IO.getEnv name).map fun value => (name, value)

/-- All that can be read from a handle. -/
def readAll (handle : IO.FS.Handle) : IO Found := do
  try
    return .bytes (← handle.readBinToEnd)
  catch _ =>
    return .unreadable

def readStandardInput : IO Found := do
  try
    return .bytes (← (← IO.getStdin).readBinToEnd)
  catch _ =>
    return .unreadable

/-- A handle on the file at a path, if it can be opened. -/
def openFile (path : String) : IO (Option IO.FS.Handle) := do
  try
    return some (← IO.FS.Handle.mk path .read)
  catch _ =>
    return none

/-- What a path leads to. -/
def findAt (path : String) : IO Found := do
  if isStandardInput path then readStandardInput
  else
    match ← openFile path with
    | some handle => readAll handle
    | none => return .nothing

/-- Prints what a process leaves behind. -/
def report (result : Exit) : IO UInt32 := do
  let out ← IO.getStdout
  out.putStr result.stdout
  out.flush
  if let some message := result.message then
    IO.eprintln ("Error: " ++ message)
  return result.code.toUInt32

def runProgram (args : List String) : IO UInt32 := do
  match Invocation.read args (← readEnvironment) with
  | .error stop => report (.ofStop stop)
  | .ok i =>
      let found ← match i.path? with
        | some path => findAt path
        | none => pure .nothing
      report (.ofResult (i.run found))

end ShardKeys.CommandLine

def main (args : List String) : IO UInt32 :=
  ShardKeys.CommandLine.runProgram args
