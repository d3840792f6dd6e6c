import HeapScript.Eval.Evaluator
import HeapScript.Eval.Interpolate

/-!
# Calls

A name that no variable has may call a native function. Otherwise the callee is
looked up: a function runs in a frame of its own, a class makes an object, and a
string fills its placeholders.

* `calleeFrame` is the frame in which the body of a function starts: the
  parameters, then the name it was invoked by, `this`, and, for a function that
  captures, the variables of the caller under other names.
* `Evaluator.callFunction` checks the number of arguments, then the depth, then
  each argument in turn, and holds the result to the declared type.
-/

namespace HeapScript

/-- Binds several names, one after the other. -/
def Frame.declareAll (f : Frame) (vars : List (String × Variable)) : Frame :=
  vars.foldl (fun f p => f.declare p.1 p.2) f

/-- The variables that the parameters of a call become. -/
def boundParams (ps : List Param) (values : List Value) : List (String × Variable) :=
  List.zipWith (fun p v => (p.name, { ty := p.ty, value := v })) ps values

/-- The variables of the caller that a capturing function sees: all but `this`,
the name it was invoked by, and those that its parameters hide. -/
def capturedVars (caller : Frame) (invokedAs : Option String) (ps : List Param) :
    List (String × Variable) :=
  caller.vars.filter fun p =>
    p.1 != "this" && invokedAs != some p.1 && !ps.any fun q => q.name == p.1

/-- The variables that a call binds to itself: the name it was invoked by, as a
constant, and `this`. -/
def ownVars (f : FunctionValue) (invokedAs : Option String) : List (String × Variable) :=
  (invokedAs.map fun invoked =>
    (invoked, { ty := .func, value := .function f, isConst := true })).toList ++
  (f.receiver.map fun index => ("this", { ty := .obj, value := .ref index })).toList

/-- The frame in which the body of a function starts. -/
def calleeFrame (f : FunctionValue) (invokedAs : Option String) (name : String)
    (values : List Value) (caller : Frame) : Frame :=
  let d := f.definition
  let captured := if d.captures then capturedVars caller invokedAs d.params else []
  { Frame.call name d.returnsRef with line := d.line }.declareAll
    (boundParams d.params values ++ ownVars f invokedAs ++ captured)

/-- The name under which a call appears in a trace. -/
def FunctionValue.callName (f : FunctionValue) (invokedAs : Option String) : String :=
  (invokedAs.or f.boundName).getD "<anonymous>"

/-- Holds a function to its declared result. -/
def Machine.checkReturn (m : Machine) (d : FunctionDef) (name : String) (v : Value) :
    Except Fault Value :=
  if d.returnsRef then m.expectReference d.returnType (.result name) v
  else if d.returnType.accepts (m.heap.typeOf v) then m.heap.conform d.returnType v
  else .error (.returnContract d.returnType (m.heap.typeOf v))

namespace Evaluator

variable {ε : Type}

/-- The values of arguments for parameters or members, each checked before the
next is evaluated. -/
def slotValues (E : Evaluator ε) (use : String → RefUse) :
    List Param → List ε → Exec (List Value)
  | p :: ps, a :: as => do
    let v ← E.hinted p.isRef a
    let v ← Exec.check fun m => m.checkSlot use p v
    let vs ← slotValues E use ps as
    return v :: vs
  | _, _ => pure []

/-- Calls a native function. -/
def callNative (E : Evaluator ε) (f : Native) (args : List ε) : Exec Value := do
  Exec.check fun _ => f.checkArity args.length
  let values ← Exec.each (E.hinted f.takesRefs) args
  fun m =>
    match f.run m.frames values m.toWorld with
    | (.ok v, world) => .ok v { m with toWorld := world }
    | (.error fault, world) => .error { fault } { m with toWorld := world }

/-- Runs the body of a function in a new frame. Without a return statement the
result is void. -/
def runBody (E : Evaluator ε) (frame : Frame) (body : Stmt) : Exec Value := do
  match ← Exec.inFrame frame (E.stmt body) with
  | (.returnValue, value) => return value.getD .void
  | _ => return .void

/-- Calls a function of the program. -/
def callFunction (E : Evaluator ε) (f : FunctionValue) (invokedAs : Option String)
    (args : List ε) : Exec Value := do
  let d := f.definition
  let name := f.callName invokedAs
  if args.length ≠ d.params.length then
    Exec.fail (.arityMismatch name d.params.length args.length)
  let limit ← Exec.read fun m => m.config.maxCallDepth
  let depth ← Exec.read fun m => m.frames.depth
  if limit ≤ depth then Exec.fail (.recursionLimit limit)
  let values ← E.slotValues .parameter d.params args
  let caller ← Exec.read fun m => m.frames.current
  let result ← E.runBody (calleeFrame f invokedAs name values caller) d.body
  Exec.check fun m => m.checkReturn d name result

/-- Makes an object of a class, one argument per member. -/
def construct (E : Evaluator ε) (c : ClassDef) (args : List ε) : Exec Value := do
  if args.length ≠ c.members.length then
    Exec.fail (.arityMismatch c.name c.members.length args.length)
  let members ← E.slotValues .member c.members args
  return .object c.name c.members members

/-- Fills the placeholders of a string. -/
def fill (E : Evaluator ε) (template : String) (args : List ε) : Exec Value := do
  let shown ← Exec.each (fun a => do
    let v ← E.value a
    Exec.read fun m => m.display v) args
  let text ← Exec.check fun _ => interpolate shown template.toList
  return .str (String.ofList text)

/-- The native function that a callee names, if no variable has that name. -/
def native? (m : Machine) : Value → Option Native
  | .ident name =>
    match m.frames.lookup name with
    | some _ => none
    | none => m.natives.get? name
  | _ => none

/-- The name that a callee is invoked by. -/
def invokedName? : Value → Option String
  | .ident name => some name
  | _ => none

/-- The call operator. -/
def call (E : Evaluator ε) (callee : Value) (args : List ε) : Exec Value := do
  match ← Exec.read fun m => native? m callee with
  | some f => E.callNative f args
  | none =>
    match ← Exec.check fun m => m.resolve callee with
    | .function f => E.callFunction f (invokedName? callee) args
    | .classDef c => E.construct c args
    | .str template => E.fill template args
    | other => Exec.fail (.notCallable other)

end Evaluator

end HeapScript
