import HeapScript.Eval.Statement

/-!
# Running programs

* `evaluator n` runs what is nested at most `n` levels deep and loops at most `n`
  times in a row. A run that needs more ends as `outOfFuel`; the number that `run`
  gives is beyond what a computer can use up.
* `Machine.run` runs a program on a machine, `Machine.bindArguments` and
  `Machine.global?` are how its surroundings reach its variables.
-/

namespace HeapScript

/-- The evaluator of so many nested levels. -/
def evaluator : Nat → Evaluator Expr
  | 0 => ⟨fun _ => Exec.exhausted, fun _ => Exec.exhausted⟩
  | n + 1 =>
    ⟨fun s m => (evaluator n).statement n s m, fun e m => (evaluator n).expression e m⟩

/-- Runs statements at the top level, one after the other. -/
def runStatements (fuel : Nat) : List Stmt → Exec Unit
  | [] => pure ()
  | s :: r => do
    let _ ← (evaluator fuel).stmt s
    runStatements fuel r

namespace Machine

/-- Runs a program with the given number of levels. -/
def runWith (fuel : Nat) (m : Machine) (p : Program) : Result Unit :=
  runStatements fuel p.statements { m with sourceName := p.sourceName }

/-- The levels that a run is given. -/
def fuel : Nat := Nat.pow 2 62

/-- Runs a program. -/
def run (m : Machine) (p : Program) : Result Unit :=
  m.runWith fuel p

/-- Binds the arguments of a command as the constant `argv`. -/
def bindArguments (m : Machine) (args : List String) : Machine :=
  { m with frames := { m.frames with
      main := m.frames.main.declare "argv" {
        ty := .array .str
        value := .array .str (args.map .str)
        isConst := true } } }

/-- The data of a variable of the top level. -/
def global? (m : Machine) (name : String) : Option Value := do
  let v ← m.frames.main.get? name
  (m.deref v.value).toOption

end Machine

end HeapScript
