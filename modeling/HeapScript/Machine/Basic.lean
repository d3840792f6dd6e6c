import HeapScript.Collector
import HeapScript.Frame
import HeapScript.Value.Conform
import HeapScript.Value.Display
import HeapScript.World.Console
import HeapScript.World.Files

/-!
# Machines

The state in which a program runs: the heap with its collector, the console and
the files, the frames of the active calls, and what was fixed at the start.

* `World` is the part of a machine that a native function may change.
* `Native` is a function that is not written in the script language. It sees the
  call stack and cannot change it.
* `Machine.collectGarbage` frees what no frame can reach.
-/

namespace HeapScript

/-- The heap, the collector, and what lies outside the program. -/
structure World where
  heap : Heap := {}
  collector : Collector
  console : Console := {}
  files : Files := {}
  /-- The milliseconds that the program has asked to pause for. -/
  paused : Nat := 0

/-- Frees what cannot be reached from the roots, and tells how many chunks. -/
def World.collect (w : World) (roots : List Value) : Nat × World :=
  let (freed, heap) := w.heap.collect roots
  (freed, { w with heap, collector := w.collector.reset heap.liveCount })

/-- The numbers of arguments that a native function accepts. -/
inductive Arity where
  | exactly (n : Nat)
  | atLeast (n : Nat)
  deriving DecidableEq, Repr

namespace Arity

/-- Whether a number of arguments is accepted. -/
def accepts : Arity → Nat → Bool
  | exactly n, count => count == n
  | atLeast n, count => n ≤ count

/-- The number that an error message asks for. -/
def bound : Arity → Nat
  | exactly n => n
  | atLeast n => n

end Arity

/-- A native function. One that takes references is handed those, not the data
they lead to. -/
structure Native where
  name : String
  arity : Arity
  takesRefs : Bool := false
  run : CallStack → List Value → World → Except Fault Value × World

/-- The fault of a call with the wrong number of arguments. -/
def Native.checkArity (f : Native) (count : Nat) : Except Fault Unit :=
  if f.arity.accepts count then .ok ()
  else .error (.arityMismatch f.name f.arity.bound count)

/-- Native functions by name. -/
abbrev Natives := List Native

namespace Natives

/-- The function with a name. -/
def get? (ns : Natives) (name : String) : Option Native :=
  ns.find? fun f => f.name == name

/-- Adds a function, in the place of one with the same name. -/
def register (ns : Natives) (f : Native) : Natives :=
  f :: ns.filter fun g => g.name != f.name

end Natives

/-- What is fixed when a machine is made. -/
structure Config where
  /-- The number of calls that may be active at once. -/
  maxCallDepth : Nat := 1024
  /-- The number of allocations before the first collection. -/
  threshold : Nat := 5
  /-- Whether collections happen without being asked for. -/
  collects : Bool := true
  deriving DecidableEq, Repr

/-- The state in which a program runs. -/
structure Machine extends World where
  frames : CallStack := {}
  config : Config
  natives : Natives
  sourceName : String := "<input>"

namespace Machine

/-- A machine that has run nothing yet. -/
def create (config : Config) (natives : Natives) (console : Console) (files : Files) :
    Machine where
  collector := { threshold := config.threshold, enabled := config.collects }
  console
  files
  config
  natives

/-- Frees what no frame can reach, and tells how many chunks. -/
def collectGarbage (m : Machine) : Nat × Machine :=
  let (freed, world) := m.toWorld.collect m.frames.roots
  (freed, { m with toWorld := world })

/-- Counts an allocation and collects if that is due. -/
def noteAllocation (m : Machine) : Machine :=
  let m := { m with collector := m.collector.noteAllocation }
  if m.collector.isDue then m.collectGarbage.2 else m

/-- Changes the frame of the innermost call. -/
def modifyFrame (m : Machine) (g : Frame → Frame) : Machine :=
  { m with frames := m.frames.modifyCurrent g }

/-- Binds a name in the frame of the innermost call. -/
def declare (m : Machine) (name : String) (v : Variable) : Machine :=
  m.modifyFrame (·.declare name v)

/-! ## What names and references stand for -/

/-- The value that a visible variable holds. -/
def lookupValue (m : Machine) (name : String) : Except Fault Value :=
  match m.frames.lookup name with
  | some v => .ok v.value
  | none => .error (.undefinedVariable name)

/-- The data that a value leads to through references. -/
def deref (m : Machine) (v : Value) : Except Fault Value :=
  (m.heap.resolve v).mapError .heap

/-- The value behind a placeholder; any other value itself. -/
def stored (m : Machine) : Value → Except Fault Value
  | .ident name => m.lookupValue name
  | v => .ok v

/-- The data behind an operand: placeholders are looked up, references followed. -/
def resolve (m : Machine) (v : Value) : Except Fault Value := do
  m.deref (← m.stored v)

/-- The data behind an operand, with the chunk it lies in if it was reached through
a reference. -/
def resolveWithOrigin (m : Machine) (v : Value) : Except Fault (Value × Option Nat) := do
  match ← m.stored v with
  | .ref index =>
    let last ← (m.heap.terminal index).mapError .heap
    let data ← (m.heap.deref last).mapError .heap
    return (data, some last)
  | data => return (data, none)

/-- Accepts a value for a slot that holds references: it must be one, and lead to
data of a type that fits. -/
def expectReference (m : Machine) (declared : Ty) (use : RefUse) (v : Value) :
    Except Fault Value :=
  match v with
  | .ref _ =>
    if declared.accepts (m.heap.typeOf v) then .ok v
    else .error (.typeMismatch declared.text (m.heap.typeOf v).text)
  | _ => .error (.referenceRequired use v)

/-- Accepts a value for a parameter or a member. -/
def checkSlot (m : Machine) (use : String → RefUse) (p : Param) (v : Value) :
    Except Fault Value :=
  if p.isRef then m.expectReference p.ty (use p.name) v else m.heap.conform p.ty v

/-- The text of a value. -/
def display (m : Machine) (v : Value) : String :=
  m.heap.display v

end Machine

end HeapScript
