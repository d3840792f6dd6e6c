import HeapScript.Collector

/-!
# The representation invariant of the heap

* `Heap.WellFormed`: no chunk is marked, and the free list holds every unused
  index once and no other.
* `WellFormed.free`: releasing a chunk keeps the invariant; what it does to one
  chunk and to the others is `isUsed_free` and `deref_free`.
-/

namespace HeapScript

namespace Heap

/-- Whether a chunk has a mark. -/
def isMarked (h : Heap) (index : Nat) : Bool :=
  match h.chunks[index]? with
  | some c => c.marked
  | none => false

/-- The representation invariant. -/
structure WellFormed (h : Heap) : Prop where
  unmarked : ∀ i, h.isMarked i = false
  nodup : h.freeList.Nodup
  mem_freeList : ∀ i, i ∈ h.freeList ↔ i < h.capacity ∧ h.isUsed i = false

theorem wellFormed_empty : ({} : Heap).WellFormed where
  unmarked i := by simp [isMarked]
  nodup := List.nodup_nil
  mem_freeList i := by simp [capacity]

/-- Two heaps with the same chunks and free list are equal. -/
theorem ext_chunks {h k : Heap} (hc : ∀ i : Nat, h.chunks[i]? = k.chunks[i]?)
    (hf : h.freeList = k.freeList) : h = k := by
  cases h; cases k
  simp only [mk.injEq]
  exact ⟨Array.ext_getElem? hc, hf⟩

theorem isUsed_iff {h : Heap} {i : Nat} :
    h.isUsed i = true ↔ ∃ c, h.chunks[i]? = some c ∧ c.used = true := by
  rw [isUsed]
  cases h.chunks[i]? <;> simp

theorem lt_capacity_of_isUsed {h : Heap} {i : Nat} (hu : h.isUsed i = true) : i < h.capacity := by
  obtain ⟨c, hc, -⟩ := isUsed_iff.1 hu
  exact (Array.getElem?_eq_some_iff.1 hc).1

theorem deref_eq_ok_iff {h : Heap} {i : Nat} {data : Value} :
    h.deref i = .ok data ↔ ∃ c, h.chunks[i]? = some c ∧ c.used = true ∧ c.data = data := by
  rw [deref]
  cases h.chunks[i]? with
  | none => simp
  | some c => by_cases hu : c.used <;> simp [hu]

theorem isUsed_of_deref {h : Heap} {i : Nat} {data : Value} (hd : h.deref i = .ok data) :
    h.isUsed i = true := by
  obtain ⟨c, hc, hu, -⟩ := deref_eq_ok_iff.1 hd
  exact isUsed_iff.2 ⟨c, hc, hu⟩

/-- Where nothing is in use, reading tells whether there is a chunk at all. -/
theorem deref_of_not_isUsed {h : Heap} {i : Nat} (hu : h.isUsed i = false) :
    h.deref i = .error (if i < h.capacity then .nullPointer i else .notOnHeap i) := by
  rw [isUsed] at hu
  rw [deref]
  cases hc : h.chunks[i]? with
  | none =>
    have hi : ¬i < h.capacity := Nat.not_lt.2 (Array.getElem?_eq_none_iff.1 hc)
    simp [hi]
  | some c =>
    rw [hc] at hu
    have hi : i < h.capacity := (Array.getElem?_eq_some_iff.1 hc).1
    simp [show c.used = false from hu, hi]

/-! ## Releasing a chunk -/

theorem free_of_not_isUsed {h : Heap} {i : Nat} (hu : h.isUsed i = false) :
    h.free i = (false, h) := by
  rw [isUsed] at hu
  rw [free]
  cases hc : h.chunks[i]? with
  | none => rfl
  | some c =>
    rw [hc] at hu
    simp [show c.used = false from hu]

theorem free_of_isUsed {h : Heap} {i : Nat} {c : Chunk} (hc : h.chunks[i]? = some c)
    (hu : c.used = true) :
    h.free i = (true, {
      chunks := h.chunks.setIfInBounds i { c with used := false, marked := false }
      freeList := i :: h.freeList }) := by
  simp [free, hc, hu]

theorem getElem?_free_self {h : Heap} {i : Nat} {c : Chunk} (hc : h.chunks[i]? = some c)
    (hu : c.used = true) :
    (h.free i).2.chunks[i]? = some { c with used := false, marked := false } := by
  have hi := (Array.getElem?_eq_some_iff.1 hc).1
  rw [free_of_isUsed hc hu, Array.getElem?_setIfInBounds_self_of_lt hi]

theorem getElem?_free_of_ne {h : Heap} {i j : Nat} (e : i ≠ j) :
    (h.free i).2.chunks[j]? = h.chunks[j]? := by
  rw [free]
  split
  · split
    · exact Array.getElem?_setIfInBounds_ne e
    · rfl
  · rfl

@[simp] theorem capacity_free (h : Heap) (i : Nat) : (h.free i).2.capacity = h.capacity := by
  rw [free, capacity, capacity]
  split
  · split
    · exact Array.size_setIfInBounds
    · rfl
  · rfl

@[simp] theorem isUsed_free (h : Heap) (i j : Nat) :
    (h.free i).2.isUsed j = (h.isUsed j && j != i) := by
  by_cases e : i = j
  · subst e
    rw [bne_self_eq_false, Bool.and_false]
    by_cases hu : h.isUsed i = true
    · obtain ⟨c, hc, hu⟩ := isUsed_iff.1 hu
      rw [isUsed, getElem?_free_self hc hu]
    · rw [Bool.not_eq_true] at hu
      rw [free_of_not_isUsed hu, hu]
  · rw [isUsed, getElem?_free_of_ne e, ← isUsed]
    simp [Ne.symm e]

theorem deref_free {h : Heap} {i j : Nat} (e : i ≠ j) : (h.free i).2.deref j = h.deref j := by
  rw [deref, deref, getElem?_free_of_ne e]

theorem freeList_free {h : Heap} {i : Nat} (hu : h.isUsed i = true) :
    (h.free i).2.freeList = i :: h.freeList := by
  obtain ⟨c, hc, hu⟩ := isUsed_iff.1 hu
  rw [free_of_isUsed hc hu]

theorem isMarked_free {h : Heap} {i j : Nat} (hm : h.isMarked j = false) :
    (h.free i).2.isMarked j = false := by
  by_cases e : i = j
  · subst e
    by_cases hu : h.isUsed i = true
    · obtain ⟨c, hc, hu⟩ := isUsed_iff.1 hu
      rw [isMarked, getElem?_free_self hc hu]
    · rwa [free_of_not_isUsed (by simpa using hu)]
  · rwa [isMarked, getElem?_free_of_ne e]

/-- Releasing a chunk, whichever it is, keeps the invariant. -/
theorem WellFormed.free {h : Heap} (hw : h.WellFormed) (i : Nat) : (h.free i).2.WellFormed := by
  by_cases hu : h.isUsed i = true
  · refine ⟨fun j => isMarked_free (hw.unmarked j), ?_, fun j => ?_⟩
    · rw [freeList_free hu, List.nodup_cons]
      refine ⟨fun hi => ?_, hw.nodup⟩
      rw [(hw.mem_freeList i).1 hi |>.2] at hu
      cases hu
    · rw [freeList_free hu, List.mem_cons, hw.mem_freeList, capacity_free, isUsed_free]
      by_cases e : j = i
      · subst e
        simp [lt_capacity_of_isUsed hu]
      · simp [e]
  · rw [free_of_not_isUsed (by simpa using hu)]
    exact hw

end Heap

end HeapScript
