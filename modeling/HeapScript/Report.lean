import HeapScript.Fault
import HeapScript.Parser.Statement
import HeapScript.Report.Layout

/-!
# Errors of a run and their reports

* `RunError` is why a script did not run to its end.
* `RunError.report` shows the line that an error is on; an error of the program
  while it runs also lists the active calls.
-/

namespace HeapScript

/-- Why a script did not run to its end. -/
inductive RunError where
  | read (path : String) (cause : FileFault)
  | source (e : SourceError)
  | runtime (e : RuntimeError)
  | unfinished

namespace RunError

/-- The error in words. -/
def message : RunError → String
  | read path cause => "cannot read `" ++ path ++ "`: " ++ cause.message
  | source e => e.message
  | runtime e => e.message
  | unfinished => "the script did not end"

/-- The report of an error in the script at a path with the given text. -/
def report (path text : String) : RunError → String
  | source e =>
    Report.render path text "syntax error" e.summary (Report.lineSpan text e.line) none
  | runtime e =>
    let span := (e.site.map fun s => Report.lineSpan text s.line).getD ⟨0, 0⟩
    let note := (e.site.filter fun s => !s.trace.isEmpty).map fun s =>
      String.ofList (Text.trimEnd s.trace.text.toList)
    Report.render path text "runtime error" e.message span note
  | e => "error: " ++ e.message ++ "\n"

end RunError

end HeapScript
