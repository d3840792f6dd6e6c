import HeapScript.Script

/-!
# The command line

The command takes a script and its arguments. What it prints, the files it leaves
and its exit code are a function of its arguments, the environment, the files and
the input.

* `Invocation.run` is that function.
-/

namespace HeapScript

namespace Command

/-- What `--help` prints. -/
def usage : String :=
  String.join ([
    "Usage: brine <file> [args...]",
    "",
    "Runs a Brine script. Trailing arguments are available",
    "to the script as the constant `str[] argv`.",
    "",
    "Options:",
    "  -h, --help       Print this help",
    "  -V, --version    Print the version",
    "",
    "Environment:",
    "  BRINE_LOG          Log filter directives, e.g. brine_eval=debug",
    "  BRINE_LOG_TREE=1   Show logs as an indented span tree",
    "  BRINE_MAX_DEPTH    Maximum nested function calls (default 1024)"].map (· ++ "\n"))

/-- What `--version` prints. -/
def version : String := "brine 0.1.0\n"

/-- The variable that sets the depth of calls. -/
def depthVariable : String := "BRINE_MAX_DEPTH"

/-- A number of 64 bits in decimal digits, with a plus sign allowed. -/
def readDepth? (s : String) : Option Nat :=
  let digits := match s.toList with
    | '+' :: r => r
    | cs => cs
  if digits.isEmpty || !digits.all Char.isDigit then none
  else (some (Decimal.natOfDigits digits)).filter (· < Decimal.twoTo 64)

/-- The configuration that an environment asks for. A depth that is no number is
ignored. -/
def config (environment : List (String × String)) : Config :=
  match (environment.lookup depthVariable).bind readDepth? with
  | some depth => { maxCallDepth := depth }
  | none => {}

end Command

/-- How the command is started. -/
structure Invocation where
  args : List String
  environment : List (String × String) := []
  files : Files := {}
  input : String := ""

/-- How the command ends. -/
structure Exit where
  code : Nat
  output : String := ""
  errors : String := ""
  files : Files
  /-- The lines of input that were not read. -/
  unread : List String := []
  paused : Nat := 0
  /-- The error that ended the script. -/
  cause : Option RunError := none

namespace Invocation

/-- Runs a script. -/
def runScript (i : Invocation) (path : String) (args : List String) : Exit :=
  let console := Console.ofInput i.input
  match readSource i.files path with
  | .error e =>
    { code := 1, errors := e.report path "", files := i.files, unread := console.input,
      cause := some e }
  | .ok source =>
    let out := runSource source path args (Command.config i.environment) console i.files
    { code := if out.error.isSome then 1 else 0
      output := out.console.output
      errors := (out.error.map (RunError.report path source)).getD ""
      files := out.files
      unread := out.console.input
      paused := out.paused
      cause := out.error }

/-- What the command does. -/
def run (i : Invocation) : Exit :=
  let unread := (Console.ofInput i.input).input
  match i.args with
  | [] => { code := 1, errors := Command.usage, files := i.files, unread }
  | first :: rest =>
    if first = "-h" ∨ first = "--help" then
      { code := 0, output := Command.usage, files := i.files, unread }
    else if first = "-V" ∨ first = "--version" then
      { code := 0, output := Command.version, files := i.files, unread }
    else i.runScript first rest

end Invocation

end HeapScript
