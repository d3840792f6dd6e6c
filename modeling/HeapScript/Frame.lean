import HeapScript.Fault

/-!
# Variables and calls

A frame holds the variables of one call, or of the top level. The frames of the
active calls form a stack on top of the frame of the top level.

* `Frame.declare` binds a name anew, `Frame.assign` changes the value of a
  variable that is there.
* `CallStack.current` is the frame of the innermost call.
* `CallStack.roots` are the values that a collection starts from, and
  `CallStack.trace` the lines that an error report shows.
-/

namespace HeapScript

/-- A variable. -/
structure Variable where
  ty : Ty
  value : Value
  isConst : Bool := false

/-- The variables of one call and where it is. -/
structure Frame where
  vars : List (String × Variable) := []
  name : String
  insideFunction : Bool
  returnsRef : Bool
  loopDepth : Nat := 0
  line : Nat := 0
  returnValue : Option Value := none

namespace Frame

/-- The frame of the top level. -/
def topLevel : Frame where
  name := "<main>"
  insideFunction := false
  returnsRef := false

/-- A frame for a call. -/
def call (name : String) (returnsRef : Bool) : Frame where
  name
  insideFunction := true
  returnsRef

/-- The variable with a name. -/
def get? (f : Frame) (name : String) : Option Variable :=
  f.vars.lookup name

/-- Binds a name, in the place of any earlier binding of it. -/
def declare (f : Frame) (name : String) (v : Variable) : Frame :=
  { f with vars := (name, v) :: f.vars.filter fun p => p.1 != name }

/-- Changes the value of the variable with a name. -/
def assign (f : Frame) (name : String) (value : Value) : Frame :=
  { f with vars := f.vars.map fun p =>
      if p.1 == name then (p.1, { p.2 with value }) else p }

/-- Whether a loop runs in this frame. -/
def inLoop (f : Frame) : Bool :=
  0 < f.loopDepth

/-- The values that the frame holds on to. -/
def roots (f : Frame) : List Value :=
  f.vars.map (fun p => p.2.value) ++ f.returnValue.toList

end Frame

/-- The frame of the top level and those of the active calls, innermost first. -/
structure CallStack where
  main : Frame := .topLevel
  calls : List Frame := []

namespace CallStack

/-- The frame of the innermost call. -/
def current (s : CallStack) : Frame :=
  match s.calls with
  | [] => s.main
  | f :: _ => f

/-- Changes the frame of the innermost call. -/
def modifyCurrent (s : CallStack) (g : Frame → Frame) : CallStack :=
  match s.calls with
  | [] => { s with main := g s.main }
  | f :: r => { s with calls := g f :: r }

/-- Enters a call. -/
def push (s : CallStack) (f : Frame) : CallStack :=
  { s with calls := f :: s.calls }

/-- Leaves the innermost call. -/
def pop (s : CallStack) : CallStack :=
  { s with calls := s.calls.tail }

/-- The number of active calls. -/
def depth (s : CallStack) : Nat :=
  s.calls.length

/-- Every frame, innermost first. -/
def frames (s : CallStack) : List Frame :=
  s.calls ++ [s.main]

/-- The values that keep chunks of the heap alive. -/
def roots (s : CallStack) : List Value :=
  s.frames.flatMap Frame.roots

/-- The calls for an error report. -/
def trace (s : CallStack) : Trace :=
  s.frames.map fun f => ⟨f.name, f.line⟩

/-- The variable that a name refers to: one of the innermost call, or else a
constant of the top level. -/
def lookup (s : CallStack) (name : String) : Option Variable :=
  match s.current.get? name with
  | some v => some v
  | none => (s.main.get? name).filter Variable.isConst

/-! ## Laws -/

@[simp] theorem current_push (s : CallStack) (f : Frame) : (s.push f).current = f := rfl

@[simp] theorem pop_push (s : CallStack) (f : Frame) : (s.push f).pop = s := rfl

@[simp] theorem depth_push (s : CallStack) (f : Frame) : (s.push f).depth = s.depth + 1 := rfl

@[simp] theorem depth_modifyCurrent (s : CallStack) (g : Frame → Frame) :
    (s.modifyCurrent g).depth = s.depth := by
  rcases s with ⟨main, _ | ⟨f, r⟩⟩ <;> rfl

@[simp] theorem current_modifyCurrent (s : CallStack) (g : Frame → Frame) :
    (s.modifyCurrent g).current = g s.current := by
  rcases s with ⟨main, _ | ⟨f, r⟩⟩ <;> rfl

end CallStack

end HeapScript
