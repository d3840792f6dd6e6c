import HeapScript.Eval.Run
import HeapScript.Native.Builtin
import HeapScript.Report

/-!
# Running a script

* `runSource` reads a program from its text and runs it with the built-in native
  functions, its arguments bound to `argv`.
-/

namespace HeapScript

/-- What is left of a run. -/
structure RunOutcome where
  console : Console
  files : Files
  paused : Nat := 0
  error : Option RunError := none

/-- Runs the program that a source text spells. -/
def runSource (source name : String) (args : List String) (config : Config) (console : Console)
    (files : Files) : RunOutcome :=
  match parseSource name source with
  | .error e => { console, files, error := some (.source e) }
  | .ok program =>
    let m := (Machine.create config .builtin console files).bindArguments args
    match m.run program with
    | .ok () m => { console := m.console, files := m.files, paused := m.paused }
    | .error e m =>
      { console := m.console, files := m.files, paused := m.paused, error := some (.runtime e) }
    | .outOfFuel => { console, files, error := some .unfinished }

/-- The text of a script. -/
def readSource (files : Files) (path : String) : Except RunError String :=
  (files.read path).mapError (.read path)

end HeapScript
