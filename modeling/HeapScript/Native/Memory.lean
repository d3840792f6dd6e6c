import HeapScript.Native.Basic

/-!
# References, receivers and the heap
-/

namespace HeapScript.Native

/-- The chunk at the end of the chain of references that an argument starts. -/
def target (h : Heap) (use : RefUse) : Value → Except Fault Nat
  | .ref index => (h.terminal index).mapError .heap
  | v => .error (.referenceRequired use v)

/-- A function with `this` bound to an object on the heap. -/
def bind : Native :=
  byRef <| pure2 "bind" fun h f object => do
    let .function f ← (h.resolve f).mapError .heap
      | .error (.typeMismatch "func" (h.typeOf f).text)
    let receiver ← target h .receiver object
    match ← (h.deref receiver).mapError .heap with
    | .object .. => return .function { f with receiver := some receiver }
    | data => .error (.typeMismatch "obj" (h.typeOf data).text)

/-- Whether two references lead to the same chunk. -/
def same : Native :=
  byRef <| pure2 "same" fun h a b => do
    let i ← target h .comparedFirst a
    let j ← target h .comparedSecond b
    return .bool (i == j)

/-- Collects garbage and gives the number of chunks freed. -/
def collect : Native where
  name := "collect"
  arity := .exactly 0
  run stack _ w :=
    let (freed, w) := w.collect stack.roots
    (.ok (.num (Float.ofNat freed)), w)

/-- The number of chunks in use. -/
def heapLive : Native where
  name := "heap_live"
  arity := .exactly 0
  run _ _ w := (.ok (.num (Float.ofNat w.heap.liveCount)), w)

/-- The functions of this module. -/
def memoryNatives : Natives :=
  [bind, same, collect, heapLive]

end HeapScript.Native
