import HeapScript.Value.Basic

/-!
# The heap

Chunks of data with stable indices. A freed chunk keeps its place and is handed
out again before the heap grows, the one freed last first.

* `Heap.allocate` and `Heap.free` are the only ways a chunk changes between used
  and free; `Heap.deref` and `Heap.write` reach used chunks only.
* `Heap.terminal` follows a chain of references to the chunk that holds data. A
  chain longer than the heap visits a chunk twice, so it is cut off there.
-/

namespace HeapScript

/-- A chunk of the heap. The mark is set only while a collection runs. -/
structure Chunk where
  data : Value
  used : Bool
  marked : Bool

/-- A heap: its chunks, and the free ones in the order in which they are reused. -/
structure Heap where
  chunks : Array Chunk := #[]
  freeList : List Nat := []

/-- Why a chunk cannot be reached: there is none with this index, or it is free. -/
inductive HeapError where
  | notOnHeap (index : Nat)
  | nullPointer (index : Nat)
  deriving DecidableEq, Repr

/-- The words of a heap error. -/
def HeapError.message : HeapError → String
  | notOnHeap _ => "dereferencing a value not on the heap"
  | nullPointer _ => "dereferencing a null pointer"

namespace Heap

/-- The number of chunks ever made, used or free. -/
def capacity (h : Heap) : Nat :=
  h.chunks.size

/-- The number of chunks in use. -/
def liveCount (h : Heap) : Nat :=
  h.chunks.size - h.freeList.length

/-- Whether there is a chunk with this index in use. -/
def isUsed (h : Heap) (index : Nat) : Bool :=
  match h.chunks[index]? with
  | some c => c.used
  | none => false

/-- Stores a value in a free chunk, or in a new one if none is free, and tells
which. -/
def allocate (h : Heap) (value : Value) : Nat × Heap :=
  let chunk : Chunk := { data := value, used := true, marked := false }
  match h.freeList with
  | index :: rest => (index, { chunks := h.chunks.setIfInBounds index chunk, freeList := rest })
  | [] => (h.chunks.size, { h with chunks := h.chunks.push chunk })

/-- Releases a chunk in use, and tells whether it was. Its data stays in place
and cannot be reached. -/
def free (h : Heap) (index : Nat) : Bool × Heap :=
  match h.chunks[index]? with
  | some c =>
    if c.used then
      (true, {
        chunks := h.chunks.setIfInBounds index { c with used := false, marked := false }
        freeList := index :: h.freeList })
    else (false, h)
  | none => (false, h)

/-- The data of a chunk in use. -/
def deref (h : Heap) (index : Nat) : Except HeapError Value :=
  match h.chunks[index]? with
  | none => .error (.notOnHeap index)
  | some c => if c.used then .ok c.data else .error (.nullPointer index)

/-- Puts a value in the place of the data of a chunk in use. -/
def write (h : Heap) (index : Nat) (value : Value) : Except HeapError Heap :=
  match h.chunks[index]? with
  | none => .error (.notOnHeap index)
  | some c =>
    if c.used then
      .ok { h with chunks := h.chunks.setIfInBounds index { c with data := value } }
    else .error (.nullPointer index)

/-- Follows references for at most so many chunks. -/
def follow (h : Heap) : Nat → Nat → Except HeapError Nat
  | 0, index => .error (.notOnHeap index)
  | n + 1, index =>
    match h.deref index with
    | .error e => .error e
    | .ok (.ref next) => follow h n next
    | .ok _ => .ok index

/-- The last chunk of the chain of references that starts at a chunk. -/
def terminal (h : Heap) (index : Nat) : Except HeapError Nat :=
  h.follow (h.capacity + 1) index

/-- The data that a value leads to: its own, or that at the end of its chain of
references. -/
def resolve (h : Heap) : Value → Except HeapError Value
  | .ref index =>
    match h.terminal index with
    | .error e => .error e
    | .ok last => h.deref last
  | v => .ok v

/-- The type of the data that a value leads to; `null` if it leads nowhere. -/
def typeOf (h : Heap) (v : Value) : Ty :=
  match h.resolve v with
  | .ok data => data.type
  | .error _ => .named "null"

theorem typeOf_of_resolve {h : Heap} {v data : Value} (hr : h.resolve v = .ok data) :
    h.typeOf v = data.type := by
  simp [typeOf, hr]

end Heap

end HeapScript
