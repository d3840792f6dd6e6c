import HeapScript.Machine.Place

/-!
# Evaluating what is nested

The parts of an expression or statement are evaluated by an `Evaluator`, which
knows how to run what is nested one level deeper. The rules of this folder are
stated for any evaluator, and the levels are tied together at the end. What calls
and slots do with expressions does not depend on how these are represented.

* `Evaluator.value` gives a copy of the data of an expression, and
  `Evaluator.hinted` its reference where a slot asks for one.
-/

namespace HeapScript

/-- How a statement ends when it succeeds. -/
inductive Flow where
  | normal
  | breakLoop
  | continueLoop
  | returnValue
  deriving DecidableEq, Repr

/-- Runs statements and expressions of the type `ε`. The value of an expression may
still be a placeholder or a reference. -/
structure Evaluator (ε : Type) where
  stmt : Stmt → Exec Flow
  expr : ε → Exec Value

namespace Evaluator

variable {ε : Type}

/-- The data of an expression. -/
def value (E : Evaluator ε) (e : ε) : Exec Value := do
  let v ← E.expr e
  Exec.check fun m => m.resolve v

/-- The value of an expression for a slot. One that holds references gets the
reference of a result that lies on the heap, any other a copy of the data. -/
def hinted (E : Evaluator ε) (byRef : Bool) (e : ε) : Exec Value :=
  if byRef then do
    let v ← E.expr e
    Exec.check fun m => m.stored v
  else E.value e

/-- The truth value of a condition. -/
def condition (E : Evaluator ε) (e : ε) : Exec Bool := do
  match ← E.value e with
  | .bool b => return b
  | other => Exec.fail (.typeMismatch "bool" other.type.text)

end Evaluator

end HeapScript
