import HeapScript.Heap

/-!
# Collecting unreachable chunks

A collection marks every chunk that can be reached from the roots and frees the
others. It is due once as many chunks have been allocated since the last one as
the threshold says; the threshold then moves to twice what survived.

* `Heap.mark` marks what can be reached from a list of chunks. It ends because it
  marks a chunk or takes one off the list at every step.
* `Heap.sweep` frees the used chunks without a mark, in the order of their
  indices, and clears the marks.
* `Heap.collect` does both and tells how many chunks were freed.
* `Collector` decides when a collection is due.
-/

namespace HeapScript

/-- Whether a chunk is in use and has no mark. -/
def Chunk.isWhite (c : Chunk) : Bool :=
  c.used && !c.marked

namespace Heap

/-- The number of chunks in use that have no mark. -/
def whiteCount (h : Heap) : Nat :=
  h.chunks.countP Chunk.isWhite

/-- Sets the mark of a chunk. -/
def setMark (h : Heap) (index : Nat) (c : Chunk) : Heap :=
  { h with chunks := h.chunks.setIfInBounds index { c with marked := true } }

theorem whiteCount_setMark {h : Heap} {index : Nat} {c : Chunk}
    (hc : h.chunks[index]? = some c) (hw : c.isWhite) :
    (h.setMark index c).whiteCount < h.whiteCount := by
  obtain ⟨hi, rfl⟩ := Array.getElem?_eq_some_iff.1 hc
  have hpos : 0 < h.chunks.countP Chunk.isWhite :=
    Array.countP_pos_iff.2 ⟨_, Array.getElem_mem hi, hw⟩
  have hm : Chunk.isWhite { h.chunks[index] with marked := true } = false := by
    simp [Chunk.isWhite]
  simp only [whiteCount, setMark, Array.setIfInBounds, hi, dite_true, Array.countP_set hi, hw, hm]
  simp only [if_true, Bool.false_eq_true, if_false]
  omega

/-- Marks the used chunks that can be reached from the chunks in the list. -/
def mark (h : Heap) (work : List Nat) : Heap :=
  match work with
  | [] => h
  | index :: rest =>
    match _hc : h.chunks[index]? with
    | none => h.mark rest
    | some c =>
      if _hw : c.isWhite then (h.setMark index c).mark (c.data.refs ++ rest)
      else h.mark rest
termination_by (h.whiteCount, work.length)
decreasing_by
  · exact Prod.Lex.right _ (by simp)
  · exact Prod.Lex.left _ _ (whiteCount_setMark _hc _hw)
  · exact Prod.Lex.right _ (by simp)

/-- The used chunks without a mark, in increasing order. -/
def garbage (h : Heap) : List Nat :=
  (List.range h.chunks.size).filter fun index =>
    match h.chunks[index]? with
    | some c => c.isWhite
    | none => false

/-- Clears the marks of the used chunks. -/
def clearMarks (h : Heap) : Heap :=
  { h with chunks := h.chunks.map fun c => if c.used then { c with marked := false } else c }

/-- Frees several chunks, one after the other. -/
def freeAll (h : Heap) (indices : List Nat) : Heap :=
  indices.foldl (fun h index => (h.free index).2) h

/-- Frees the used chunks without a mark and clears the marks of the others. -/
def sweep (h : Heap) : Nat × Heap :=
  (h.garbage.length, h.clearMarks.freeAll h.garbage)

/-- Frees the chunks that cannot be reached from the roots, and tells how many. -/
def collect (h : Heap) (roots : List Value) : Nat × Heap :=
  (h.mark (Value.refsAll roots)).sweep

end Heap

/-- When to collect. -/
structure Collector where
  allocatedSince : Nat := 0
  threshold : Nat
  enabled : Bool
  collections : Nat := 0
  deriving DecidableEq, Repr

namespace Collector

/-- Counts an allocation. -/
def noteAllocation (c : Collector) : Collector :=
  { c with allocatedSince := c.allocatedSince + 1 }

/-- Whether a collection is due. -/
def isDue (c : Collector) : Bool :=
  c.enabled && decide (c.threshold ≤ c.allocatedSince)

/-- The state after a collection that left so many chunks in use. -/
def reset (c : Collector) (live : Nat) : Collector :=
  { c with allocatedSince := 0, threshold := 2 * live, collections := c.collections + 1 }

end Collector

end HeapScript
