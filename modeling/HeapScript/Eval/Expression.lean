import HeapScript.Eval.Call

/-!
# Expressions

An expression runs on a stack of operands. Operands are pushed as they come, names
as placeholders; an operator takes its operands off and resolves them only then,
so a name stands for what its variable holds when the operator runs.

* `Evaluator.instr` is one instruction, `Evaluator.instrs` a sequence.
* `Evaluator.expression` is the value that an expression leaves on the stack.
-/

namespace HeapScript

namespace Machine

/-- A member of an object. A function remembers the name it was read by, and is
bound to the chunk of the object if that was reached through a reference. -/
def member (m : Machine) (object member : Value) : Except Fault Value := do
  let .ident name := member | .error (.invalidOperand "." member)
  let (data, origin) ← m.resolveWithOrigin object
  let (value, _, _) ← data.enter (.member name)
  match value with
  | .function f =>
    return .function { f with receiver := origin.or f.receiver, boundName := some name }
  | other => return other

/-- An element of an array. -/
def element (m : Machine) (target index : Value) : Except Fault Value := do
  let data ← m.resolve target
  let (value, _, _) ← data.enter (.index index)
  return value

end Machine

/-- An array of given elements. The first one decides the type of all. -/
def arrayOf (items : List Value) : Except Fault Value :=
  match items with
  | [] => .ok (.array .var [])
  | first :: rest =>
    match rest.find? fun v => !first.type.accepts v.type with
    | some v => .error (.typeMismatch first.type.text v.type.text)
    | none => .ok (.array first.type items)

/-- The arguments of a call that hold an expression. -/
def arguments (args : List Expr) : List Expr :=
  args.filter fun a => !a.isEmpty

namespace Evaluator

/-- One instruction, given the operands, the topmost first. -/
def instr (E : Evaluator Expr) (i : Instr) (stack : List Value) : Exec (List Value) :=
  match i with
  | .num value => pure (.num value :: stack)
  | .str value => pure (.str value :: stack)
  | .bool value => pure (.bool value :: stack)
  | .ident name => pure (.ident name :: stack)
  | .function definition => pure (.function { definition } :: stack)
  | .array elements => do
    let items ← Exec.each E.value elements
    let v ← Exec.check fun _ => arrayOf items
    return v :: stack
  | .binary op =>
    match stack with
    | right :: left :: rest => do
      let v ← Exec.check fun m => do
        let a ← m.resolve left
        let b ← m.resolve right
        Value.binary op a b
      return v :: rest
    | _ => Exec.fail .missingOperand
  | .unary op =>
    match stack with
    | operand :: rest => do
      let v ← Exec.check fun m => do Value.unary op (← m.resolve operand)
      return v :: rest
    | [] => Exec.fail .missingOperand
  | .assign op =>
    match stack with
    | value :: target :: rest =>
      match target with
      | .ident name => do
        let value ← Exec.check fun m => m.resolve value
        let v ← Exec.assign (.var name) op value
        return v :: rest
      | _ => Exec.fail (.notAssignable target)
    | _ => Exec.fail .missingOperand
  | .member =>
    match stack with
    | member :: object :: rest => do
      let v ← Exec.check fun m => m.member object member
      return v :: rest
    | _ => Exec.fail .missingOperand
  | .call args =>
    match stack with
    | callee :: rest => do
      let v ← E.call callee (arguments args)
      return v :: rest
    | [] => Exec.fail .missingOperand
  | .index idx =>
    match stack with
    | target :: rest => do
      let index ← E.value idx
      let v ← Exec.check fun m => m.element target index
      return v :: rest
    | [] => Exec.fail .missingOperand

/-- A sequence of instructions, given the operands. -/
def instrs (E : Evaluator Expr) : List Instr → List Value → Exec (List Value)
  | [], stack => pure stack
  | i :: r, stack => do
    let stack ← E.instr i stack
    instrs E r stack

/-- The value that an expression leaves on the stack; void if it is empty. -/
def expression (E : Evaluator Expr) (e : Expr) : Exec Value := do
  let stack ← E.instrs e.flatten []
  return stack.headD .void

end Evaluator

end HeapScript
