import HeapScript.Eval.Expression

/-!
# Statements

A statement first notes its line in the frame it runs in. It ends normally, leaves
a loop or a function, or fails; an error that has no site yet gets the line of the
statement and the calls active then.

* `Evaluator.place` is the place that the target of an assignment names.
* `Evaluator.loop` runs a loop, `Evaluator.statement` any statement.
-/

namespace HeapScript

/-- Whether instructions are steps into a value: members by name, and indices. -/
def isPath : List Instr → Bool
  | [] => true
  | .ident _ :: .member :: r => isPath r
  | .index _ :: r => isPath r
  | _ => false

namespace Evaluator

/-- The steps that instructions spell, indices evaluated in order. -/
def steps (E : Evaluator Expr) : List Instr → Exec (List Step)
  | .ident name :: .member :: r => do
    let rest ← steps E r
    return .member name :: rest
  | .index idx :: r => do
    let value ← E.value idx
    let rest ← steps E r
    return .index value :: rest
  | _ => pure []

/-- The chunk that an expression refers to, as a place. -/
def referredPlace (E : Evaluator Expr) (target : Expr) : Exec Place := do
  match ← E.hinted true target with
  | .ref index => return .chunk index
  | other => Exec.fail (.notAssignable other)

/-- The place that the target of an assignment names: a path from a variable, or
the chunk that any other expression refers to. -/
def place (E : Evaluator Expr) (target : Expr) : Exec Place :=
  match target.flatten with
  | .ident name :: rest =>
    if isPath rest then do
      let path ← E.steps rest
      return { root := .var name, path }
    else E.referredPlace target
  | _ => E.referredPlace target

/-- Evaluates an expression and assigns it. A slot that holds references gets the
reference of the result. -/
def assignFrom (E : Evaluator Expr) (p : Place) (op : AssignOp) (e : Expr) : Exec Unit := do
  let byRef ← match op with
    | .assign => Exec.check fun m => (m.locate p).map Slot.holdsRef
    | _ => pure false
  let value ← E.hinted byRef e
  let _ ← Exec.assign p op value

/-- The value of a declaration before it is put on the heap. -/
def declared (E : Evaluator Expr) (flags : DeclFlags) (ty : Ty) (name : String)
    (init : Option Expr) : Exec Value :=
  match init with
  | some e => do
    let v ← E.hinted flags.isRef e
    Exec.check fun m =>
      if flags.isRef then m.expectReference ty (.declaration name) v else m.heap.conform ty v
  | none =>
    if flags.isRef then Exec.check fun m => m.expectReference ty (.declaration name) .void
    else pure ty.default

/-- A declaration. -/
def declaration (E : Evaluator Expr) (flags : DeclFlags) (ty : Ty) (name : String)
    (init : Option Expr) : Exec Unit := do
  let value ← E.declared flags ty name init
  Exec.modify fun m =>
    if flags.isAlloc then
      let (index, heap) := m.heap.allocate value
      let v : Variable := { ty, value := .ref index, isConst := flags.isConst }
      ({ m with heap } : Machine).declare name v |>.noteAllocation
    else m.declare name { ty, value, isConst := flags.isConst }

/-- A return statement: the value waits in the frame. -/
def returns (E : Evaluator Expr) (value : Option Expr) : Exec Flow := do
  let frame ← Exec.read fun m => m.frames.current
  if !frame.insideFunction then Exec.fail .returnOutsideFunction
  let v ← match value with
    | some e => if e.isEmpty then pure .void else E.hinted frame.returnsRef e
    | none => pure .void
  Exec.modify fun m => m.modifyFrame fun f => { f with returnValue := some v }
  return .returnValue

/-- Statements one after the other, until one does not end normally. -/
def block (E : Evaluator Expr) : List Stmt → Exec Flow
  | [] => pure .normal
  | s :: r => do
    match ← E.stmt s with
    | .normal => block E r
    | flow => return flow

/-- Whether a loop goes on. One without a condition does. -/
def goesOn (E : Evaluator Expr) : Option Expr → Exec Bool
  | some c => if c.isEmpty then pure true else E.condition c
  | none => pure true

/-- What follows the body of a loop: the step and another round, or the end. -/
def afterBody (E : Evaluator Expr) (step : Option Stmt) : Flow → Exec (Option Flow)
  | .breakLoop => pure (some .normal)
  | .returnValue => pure (some .returnValue)
  | .normal | .continueLoop => do
    if let some s := step then
      let _ ← E.stmt s
    return none

/-- One round of a loop: whether to go on, or how the loop ends. -/
def round (E : Evaluator Expr) (cond : Option Expr) (step : Option Stmt) (body : Stmt) :
    Exec (Option Flow) := do
  if ← E.goesOn cond then
    let flow ← E.stmt body
    E.afterBody step flow
  else return some .normal

/-- The rounds of a loop, at most so many. -/
def loop (E : Evaluator Expr) (cond : Option Expr) (step : Option Stmt) (body : Stmt) :
    Nat → Machine → Result Flow
  | 0, _ => .outOfFuel
  | n + 1, m =>
    match E.round cond step body m with
    | .ok none m => loop E cond step body n m
    | .ok (some flow) m => .ok flow m
    | .error e m => .error e m
    | .outOfFuel => .outOfFuel

/-- What a statement does, apart from noting its line and the site of an error. -/
def dispatch (E : Evaluator Expr) (n : Nat) : Stmt → Exec Flow
  | .expr e _ => do
    let _ ← E.value e
    return .normal
  | .decl flags ty name init _ => do
    E.declaration flags ty name init
    return .normal
  | .classDef c _ => do
    Exec.modify fun m =>
      m.declare c.name { ty := .classTy, value := .classDef c, isConst := true }
    return .normal
  | .ifThen cond thenBranch elseBranch _ => do
    if ← E.condition cond then E.stmt thenBranch
    else
      match elseBranch with
      | some s => E.stmt s
      | none => return .normal
  | .whileLoop cond body _ => Exec.inLoop (E.loop (some cond) none body n)
  | .forLoop init cond step body _ => do
    if let some s := init then
      let _ ← E.stmt s
    Exec.inLoop (E.loop cond step body n)
  | .block body _ => E.block body
  | .breakLoop _ => do
    if ← Exec.read fun m => m.frames.current.inLoop then return .breakLoop
    else Exec.fail .breakOutsideLoop
  | .continueLoop _ => do
    if ← Exec.read fun m => m.frames.current.inLoop then return .continueLoop
    else Exec.fail .continueOutsideLoop
  | .returnValue value _ => E.returns value
  | .setMember target member op value _ => do
    let p ← E.place target
    E.assignFrom (p.push (.member member)) op value
    return .normal
  | .setIndex target idx op value _ => do
    let p ← E.place target
    let index ← E.value idx
    E.assignFrom (p.push (.index index)) op value
    return .normal
  | .nop _ => return .normal

/-- One statement. -/
def statement (E : Evaluator Expr) (n : Nat) (s : Stmt) : Exec Flow := do
  Exec.modify fun m => m.modifyFrame fun f => { f with line := s.line }
  Exec.located s.line (E.dispatch n s)

end Evaluator

end HeapScript
