import HeapScript.Command

/-!
# The program

Runs the command on the real files and the real input. The command is a function
of both, so it is run on what is known of them, and again whenever it asked for a
file that was not known yet; only then is its output printed.
-/

namespace HeapScript

/-- Whether there is a directory at a path. -/
def directoryExists (path : String) : IO Bool := do
  ((← IO.currentDir) / path).isDir

/-- The files with what is found at each step of a path, if that is anything new. -/
def load? (files : Files) (path : String) : IO (Option Files) := do
  let names := Files.components path
  let mut found := files
  let mut isNew := false
  for n in [1 : names.length + 1] do
    let step := Files.pathText (names.take n)
    let place := Files.shorten (names.take n)
    unless found.isDirectory place || (found.find? place).isSome do
      if ← directoryExists step then
        found := found.addDirectory place
        isNew := true
      else
        try
          found := found.insert place (← IO.FS.readBinFile step)
          isNew := true
        catch _ => pure ()
  return if isNew then some found else none

/-- The files with what a run missed, if that can be found. -/
def loadMissing? (files : Files) : RunError → IO (Option Files)
  | .read path .notFound => load? files path
  | .runtime { fault := .file _ path .notFound, .. } => load? files path
  | _ => return none

/-- Runs the command until it misses no file that is there. -/
partial def settle (i : Invocation) : IO (Invocation × Exit) := do
  let e := i.run
  match ← e.cause.elim (pure none) (loadMissing? i.files) with
  | some files => settle { i with files }
  | none => return (i, e)

/-- All of the input. -/
partial def readInput (stdin : IO.FS.Stream) (text : String) : IO String := do
  let line ← stdin.getLine
  if line.isEmpty then return text
  readInput stdin (text ++ line)

/-- Runs the command, with its input only if it reads a line. -/
def perform (i : Invocation) : IO (Invocation × Exit) := do
  let (i, e) ← settle { i with input := "\n" }
  if !e.unread.isEmpty then return (i, e)
  settle { i with input := ← readInput (← IO.getStdin) "" }

/-- Writes the files that a run changed. -/
def writeChanged (before after : Files) : IO Unit := do
  for (path, bytes) in after.entries do
    if before.find? path != some bytes then
      IO.FS.writeBinFile (Files.pathText path) bytes

end HeapScript

/-- The command `brine`. -/
def main (args : List String) : IO UInt32 := do
  let depth ← IO.getEnv HeapScript.Command.depthVariable
  let environment := depth.toList.map fun d => (HeapScript.Command.depthVariable, d)
  let (i, e) ← HeapScript.perform { args, environment }
  IO.sleep (UInt32.ofNat e.paused)
  IO.print e.output
  (← IO.getStdout).flush
  IO.eprint e.errors
  HeapScript.writeChanged i.files e.files
  return UInt32.ofNat e.code
