import HeapScript.Machine.Exec
import HeapScript.Operate

/-!
# Places

A place is a variable or a heap chunk with a path of members and elements into
it. Assigning to a place first walks the path, starting again from the chunk at
each reference on the way, so that the place it ends up with crosses none.

* `Machine.locate` is that walk; the `Slot` it finds says what the place accepts.
* `Machine.readPlace` and `Machine.writePlace` reach the value at a place that
  crosses no reference.
* `Exec.assign` stores a value in a place, after the operator of a compound
  assignment was applied.
-/

namespace HeapScript

/-- Where a place starts. -/
inductive Root where
  | var (name : String)
  | chunk (index : Nat)

/-- A step of a path into a value. -/
inductive Step where
  | member (name : String)
  | index (value : Value)

/-- A variable or chunk and a path into it. -/
structure Place where
  root : Root
  path : List Step := []

/-- The whole of a variable. -/
def Place.var (name : String) : Place := { root := .var name }

/-- The whole of a chunk. -/
def Place.chunk (index : Nat) : Place := { root := .chunk index }

/-- The place one step further. -/
def Place.push (p : Place) (s : Step) : Place := { p with path := p.path ++ [s] }

/-- A place that crosses no reference, and what it accepts. -/
structure Slot where
  place : Place
  declared : Ty
  holdsRef : Bool

/-- The position that an index value names in an array of the given length. -/
def checkedIndex (index : Value) (length : Nat) : Except Fault Nat :=
  match index.int? with
  | some i =>
    if 0 ≤ i ∧ i < length then .ok i.toNat else .error (.indexOutOfBounds index length)
  | none =>
    if index.isWhole then .error (.indexOutOfBounds index length)
    else .error (.typeMismatch "int" index.type.text)

namespace Value

/-- The part of a value that a step leads to, with the type that its slot declares
and whether the slot holds references. -/
def enter (v : Value) (s : Step) : Except Fault (Value × Ty × Bool) :=
  match s with
  | .member name =>
    match v with
    | object className layout members =>
      match memberPosition? layout name with
      | none => .error (.noSuchMember className name)
      | some i =>
        match layout[i]?, members[i]? with
        | some p, some member => .ok (member, p.ty, p.isRef)
        | _, _ => .error (.noSuchMember className name)
    | _ => .error (.invalidOperand "." v)
  | .index idx =>
    match v with
    | array element items =>
      match checkedIndex idx items.length with
      | .error f => .error f
      | .ok i =>
        match items[i]? with
        | some item => .ok (item, element, false)
        | none => .error (.indexOutOfBounds idx items.length)
    | _ => .error (.invalidOperand "[]" v)

/-- The part of a value at the end of a path. -/
def getAt : List Step → Value → Except Fault Value
  | [], v => .ok v
  | s :: r, v =>
    match v.enter s with
    | .error f => .error f
    | .ok (part, _, _) => getAt r part

/-- Puts a new part in the place of the one that a step leads to. -/
def replace (v : Value) (s : Step) (part : Value) : Value :=
  match s, v with
  | .member name, object className layout members =>
    match memberPosition? layout name with
    | some i => object className layout (members.set i part)
    | none => v
  | .index idx, array element items =>
    match checkedIndex idx items.length with
    | .ok i => array element (items.set i part)
    | .error _ => v
  | _, _ => v

/-- The value with a new part at the end of a path. -/
def setAt : List Step → Value → Value → Except Fault Value
  | [], _, new => .ok new
  | s :: r, v, new =>
    match v.enter s with
    | .error f => .error f
    | .ok (part, _, _) => (setAt r part new).map (v.replace s)

end Value

namespace Machine

/-- The variable that an assignment to a name changes: one of the innermost call
that is no constant. -/
def writableVariable (m : Machine) (name : String) : Except Fault Variable :=
  match m.frames.current.get? name with
  | some v => if v.isConst then .error (.constantAssignment name) else .ok v
  | none =>
    if (m.frames.lookup name).isSome then .error (.constantAssignment name)
    else .error (.undefinedVariable name)

/-- The value at the root of a place, and the type it is declared with. -/
def rootValue (m : Machine) : Root → Except Fault (Value × Ty)
  | .var name => do
    let v ← m.writableVariable name
    return (v.value, v.ty)
  | .chunk index => do
    let data ← (m.heap.deref index).mapError .heap
    return (data, .var)

/-- How far a walk has come: the value there, and its slot. -/
structure Walk where
  value : Value
  slot : Slot

/-- Starts again from the chunk if the value is a reference. -/
def cross (m : Machine) (w : Walk) : Except Fault Walk :=
  match w.value with
  | .ref index => do
    let last ← (m.heap.terminal index).mapError .heap
    let data ← (m.heap.deref last).mapError .heap
    return { value := data, slot := { w.slot with place := .chunk last } }
  | _ => .ok w

/-- Takes the steps of a path. -/
def walk (m : Machine) (w : Walk) : List Step → Except Fault Walk
  | [] => .ok w
  | s :: r => do
    let w ← m.cross w
    let (value, declared, holdsRef) ← w.value.enter s
    m.walk { value, slot := { place := w.slot.place.push s, declared, holdsRef } } r

/-- The slot that a place leads to. A reference at the end leads on to its chunk,
unless the slot is one that holds references. -/
def locate (m : Machine) (p : Place) : Except Fault Slot := do
  let (value, declared) ← m.rootValue p.root
  let w ← m.walk { value, slot := { place := { root := p.root }, declared, holdsRef := false } }
    p.path
  match w.slot.holdsRef, w.value with
  | false, .ref index => do
    let last ← (m.heap.terminal index).mapError .heap
    return { w.slot with place := .chunk last }
  | _, _ => return w.slot

/-- The value at a place that crosses no reference. -/
def readPlace (m : Machine) (p : Place) : Except Fault Value := do
  let (value, _) ← m.rootValue p.root
  value.getAt p.path

/-- The machine with a new value at a place that crosses no reference. -/
def writePlace (m : Machine) (p : Place) (new : Value) : Except Fault Machine := do
  let (old, _) ← m.rootValue p.root
  let value ← old.setAt p.path new
  match p.root with
  | .var name => return m.modifyFrame (·.assign name value)
  | .chunk index => return { m with heap := ← (m.heap.write index value).mapError .heap }

/-- The value that an assignment stores in a slot. -/
def assignedValue (m : Machine) (slot : Slot) (op : AssignOp) (value : Value) :
    Except Fault Value := do
  let value ← match op.binary? with
    | some binary => do
      let current ← m.resolve (← m.readPlace slot.place)
      let value ← m.resolve value
      Value.binary binary current value
    | none => pure value
  if slot.holdsRef then m.expectReference slot.declared .memberSlot value
  else m.heap.conform slot.declared value

end Machine

/-- Stores a value in a place, and gives the value stored. -/
def Exec.assign (p : Place) (op : AssignOp) (value : Value) : Exec Value := fun m =>
  let outcome : Except Fault (Value × Machine) := do
    let slot ← m.locate p
    let value ← m.assignedValue slot op value
    let m ← m.writePlace slot.place value
    return (value, m)
  match outcome with
  | .ok (value, m) => .ok value m
  | .error f => .error { fault := f } m

end HeapScript
