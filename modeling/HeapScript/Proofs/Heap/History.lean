import HeapScript.Proofs.Heap.Collect
import HeapScript.Proofs.Heap.Store
import Mathlib.Data.List.Infix
import Mathlib.Data.List.Perm.Subperm
import Mathlib.Order.Bounds.Basic

/-!
# Histories of a heap

The used flags and the free list describe one set twice. Here they are shown to agree
after any sequence of operations on an empty heap.

* `Heap.Op` is an operation and `Heap.after` the heap after several of them.
* `WellFormed.liveCount_eq`: on a well-formed heap `liveCount` is the number of chunks in
  use. What each operation does to it stands in the same section.
* `capacity_apply`: an operation that makes the heap grow leaves no chunk free. So the
  capacity is the largest number of chunks that were ever in use at once
  (`isGreatest_capacity`).
* `freeList_exact` is what this means for every history and for its next operation.
-/

namespace HeapScript

namespace Heap

variable {h h' : Heap}

/-! ## Counting the chunks in use -/

/-- The indices in use, in increasing order. -/
def inUse (h : Heap) : List Nat :=
  (List.range h.capacity).filter h.isUsed

theorem mem_inUse {i : Nat} : i ∈ h.inUse ↔ h.isUsed i = true := by
  rw [inUse, List.mem_filter, List.mem_range]
  exact ⟨And.right, fun hu => ⟨lt_capacity_of_isUsed hu, hu⟩⟩

theorem length_inUse_le (h : Heap) : h.inUse.length ≤ h.capacity := by
  have hle := List.length_filter_le h.isUsed (List.range h.capacity)
  rwa [List.length_range] at hle

/-- Different chunks in use. -/
structure Distinct (h : Heap) (indices : List Nat) : Prop where
  nodup : indices.Nodup
  isUsed : ∀ i ∈ indices, h.isUsed i = true

theorem distinct_nil (h : Heap) : h.Distinct [] := by
  constructor <;> simp

theorem Distinct.cons {indices : List Nat} {i : Nat} (hd : h.Distinct indices)
    (hi : i ∉ indices) (hu : h.isUsed i = true) : h.Distinct (i :: indices) where
  nodup := List.nodup_cons.2 ⟨hi, hd.nodup⟩
  isUsed j hj := by
    rcases List.mem_cons.1 hj with rfl | hj
    · exact hu
    · exact hd.isUsed j hj

theorem Distinct.length_le {indices : List Nat} (hd : h.Distinct indices) :
    indices.length ≤ h.inUse.length :=
  (hd.nodup.subperm fun i hi => mem_inUse.2 (hd.isUsed i hi)).length_le

/-- The free list holds the unused indices, in some order. -/
theorem WellFormed.freeList_perm (hw : h.WellFormed) :
    h.freeList.Perm ((List.range h.capacity).filter fun i => !h.isUsed i) := by
  refine (List.perm_ext_iff_of_nodup hw.nodup (List.nodup_range.filter _)).2 fun i => ?_
  rw [hw.mem_freeList, List.mem_filter, List.mem_range, Bool.not_eq_true']

/-- Every index is in use or on the free list. -/
theorem WellFormed.length_inUse_add (hw : h.WellFormed) :
    h.inUse.length + h.freeList.length = h.capacity := by
  have hsplit := List.length_eq_length_filter_add (l := List.range h.capacity) h.isUsed
  rw [List.length_range] at hsplit
  rw [hw.freeList_perm.length_eq, inUse, ← hsplit]

theorem WellFormed.length_freeList_le (hw : h.WellFormed) :
    h.freeList.length ≤ h.chunks.size := by
  have hsum := hw.length_inUse_add
  rw [capacity] at hsum
  omega

theorem WellFormed.liveCount_eq (hw : h.WellFormed) : h.liveCount = h.inUse.length := by
  have hsum := hw.length_inUse_add
  rw [capacity] at hsum
  rw [liveCount]
  omega

theorem liveCount_le_capacity (h : Heap) : h.liveCount ≤ h.capacity :=
  Nat.sub_le _ _

theorem liveCount_allocate (hw : h.WellFormed) (v : Value) :
    (h.allocate v).2.liveCount = h.liveCount + 1 := by
  have hle := hw.length_freeList_le
  rw [allocate]
  split
  · rename_i index rest hf
    rw [hf, List.length_cons] at hle
    simp only [liveCount, hf, Array.size_setIfInBounds, List.length_cons]
    omega
  · rename_i hf
    simp [liveCount, hf]

theorem liveCount_write {i : Nat} {v : Value} (hd : h.write i v = .ok h') :
    h'.liveCount = h.liveCount := by
  obtain ⟨c, -, -, rfl⟩ := write_eq_ok hd
  simp [liveCount]

/-! ## Operations -/

/-- An operation on a heap. Writes go through a reference to the data of a chunk, so they
change nothing where there is none. -/
inductive Op where
  | allocate (value : Value)
  | free (index : Nat)
  | write (index : Nat) (value : Value)
  | collect (roots : List Value)

/-- The heap after an operation. -/
def Op.apply (h : Heap) : Op → Heap
  | allocate v => (h.allocate v).2
  | free i => (h.free i).2
  | write i v =>
    match h.write i v with
    | .ok h' => h'
    | .error _ => h
  | collect roots => (h.collect roots).2

/-- The heap after several operations on an empty one. -/
def after (ops : List Op) : Heap :=
  ops.foldl Op.apply {}

theorem after_concat (ops : List Op) (op : Op) : after (ops ++ [op]) = op.apply (after ops) := by
  rw [after, List.foldl_append]
  rfl

theorem WellFormed.apply (hw : h.WellFormed) (op : Op) : (op.apply h).WellFormed := by
  cases op with
  | allocate v => exact hw.allocate v
  | free i => exact hw.free i
  | write i v =>
    rw [Op.apply]
    split
    · rename_i hd
      exact hw.write hd
    · exact hw
  | collect roots => exact hw.collect roots

/-- A heap grows only when no chunk is free. -/
theorem capacity_allocate (h : Heap) (v : Value) :
    h.freeList ≠ [] ∧ (h.allocate v).2.capacity = h.capacity ∨
      h.freeList = [] ∧ (h.allocate v).2.freeList = [] ∧
        (h.allocate v).2.capacity = h.capacity + 1 := by
  rw [allocate]
  split
  · rename_i hf
    exact .inl ⟨by simp [hf], Array.size_setIfInBounds⟩
  · rename_i hf
    exact .inr ⟨hf, hf, Array.size_push _⟩

/-- An operation keeps the capacity, or adds a chunk when all are in use. -/
theorem capacity_apply (hw : h.WellFormed) (op : Op) :
    (op.apply h).capacity = h.capacity ∨
      h.capacity < (op.apply h).capacity ∧ (op.apply h).liveCount = (op.apply h).capacity := by
  cases op with
  | allocate v =>
    rcases capacity_allocate h v with ⟨-, hc⟩ | ⟨-, hf, hc⟩
    · exact .inl hc
    · refine .inr ⟨Nat.lt_of_lt_of_eq (Nat.lt_succ_self _) hc.symm, ?_⟩
      rw [Op.apply, liveCount, hf]
      rfl
  | free i => exact .inl (capacity_free h i)
  | write i v =>
    rw [Op.apply]
    split
    · rename_i hd
      exact .inl (capacity_write hd)
    · exact .inl rfl
  | collect roots => exact .inl (capacity_collect hw roots)

theorem capacity_le_apply (hw : h.WellFormed) (op : Op) : h.capacity ≤ (op.apply h).capacity :=
  (capacity_apply hw op).elim (fun hc => Nat.le_of_eq hc.symm) fun hc => Nat.le_of_lt hc.1

/-! ## Histories -/

theorem wellFormed_after (ops : List Op) : (after ops).WellFormed := by
  induction ops using List.reverseRecOn with
  | nil => exact wellFormed_empty
  | append_singleton ops op ih =>
    rw [after_concat]
    exact ih.apply op

/-- The capacity is reached by the number of chunks in use at some time, and never
exceeded. The induction is on the history from its end: the last operation either keeps
the capacity, and the time is an earlier one, or leaves every chunk in use. -/
theorem isGreatest_capacity (ops : List Op) :
    IsGreatest {n | ∃ pre, pre <+: ops ∧ (after pre).liveCount = n} (after ops).capacity := by
  induction ops using List.reverseRecOn with
  | nil =>
    refine ⟨⟨[], List.nil_prefix, rfl⟩, ?_⟩
    rintro _ ⟨pre, hpre, rfl⟩
    rw [List.prefix_nil.1 hpre]
    exact liveCount_le_capacity _
  | append_singleton ops op ih =>
    have hw := wellFormed_after ops
    rw [after_concat]
    constructor
    · rcases capacity_apply hw op with hc | ⟨-, hc⟩
      · obtain ⟨pre, hpre, hlive⟩ := ih.1
        exact ⟨pre, hpre.trans (List.prefix_append _ _), hlive.trans hc.symm⟩
      · exact ⟨ops ++ [op], List.prefix_refl _, by rw [after_concat, hc]⟩
    · rintro _ ⟨pre, hpre, rfl⟩
      rcases List.prefix_concat_iff.1 hpre with rfl | hpre
      · rw [after_concat]
        exact liveCount_le_capacity _
      · exact (ih.2 ⟨pre, hpre, rfl⟩).trans (capacity_le_apply hw op)

/-- After any history no chunk is marked and the free list holds exactly the unused
indices, each once; `liveCount` subtracts no more than there is and is the number of chunks
in use; and the capacity is the largest number ever in use at once. A new value takes an
index that was not in use, a free one while there is one, and leaves every other chunk as
it is. Releasing an index succeeds exactly if it was in use, and then leaves every other
chunk as it is; otherwise it leaves the whole heap. -/
theorem freeList_exact (ops : List Op) :
    let h := after ops
    h.WellFormed ∧
    (h.freeList.length ≤ h.chunks.size ∧ h.liveCount = h.inUse.length) ∧
    IsGreatest {n | ∃ pre, pre <+: ops ∧ (after pre).liveCount = n} h.capacity ∧
    (∀ v, h.isUsed (h.allocate v).1 = false ∧ (h.allocate v).2.deref (h.allocate v).1 = .ok v ∧
      (h.liveCount < h.capacity → (h.allocate v).2.capacity = h.capacity) ∧
      ∀ j, j ≠ (h.allocate v).1 → (h.allocate v).2.chunks[j]? = h.chunks[j]?) ∧
    (∀ i, (h.free i).1 = h.isUsed i ∧ (h.isUsed i = false → (h.free i).2 = h) ∧
      (h.free i).2.isUsed i = false ∧ ∀ j, j ≠ i → (h.free i).2.chunks[j]? = h.chunks[j]?) := by
  intro h
  have hw : h.WellFormed := wellFormed_after ops
  refine ⟨hw, ⟨hw.length_freeList_le, hw.liveCount_eq⟩, isGreatest_capacity ops, fun v => ?_,
    fun i => ?_⟩
  · refine ⟨isUsed_allocate_fresh hw v, ?_, fun hlive => ?_, fun j hj => ?_⟩
    · rw [deref_allocate hw, if_pos rfl]
    · rcases capacity_allocate h v with ⟨-, hc⟩ | ⟨hf, -⟩
      · exact hc
      · rw [liveCount, hf] at hlive
        exact absurd hlive (Nat.lt_irrefl _)
    · rw [getElem?_allocate hw, if_neg hj]
  · refine ⟨?_, fun hu => by rw [free_of_not_isUsed hu], by simp, fun j hj =>
      getElem?_free_of_ne (Ne.symm hj)⟩
    by_cases hu : h.isUsed i = true
    · obtain ⟨c, hc, hused⟩ := isUsed_iff.1 hu
      rw [free_of_isUsed hc hused, hu]
    · rw [Bool.not_eq_true] at hu
      rw [free_of_not_isUsed hu, hu]

/-- A history that fills two chunks, releases the first one twice and an index that never
was one, and writes to the other. -/
def recycling : List Op :=
  [.allocate .void, .allocate (.bool true), .free 0, .free 0, .free 9, .write 1 (.ref 0)]

theorem freeList_exact_recycling :
    (after recycling).WellFormed ∧ (after recycling).inUse.length = 1 ∧
      ((after recycling).allocate .void).2.capacity = 2 ∧
      ((after recycling).free 0).2 = after recycling ∧
      IsGreatest {n | ∃ pre, pre <+: recycling ∧ (after pre).liveCount = n} 2 := by
  obtain ⟨hw, ⟨-, hlive⟩, hpeak, hallocate, hfree⟩ := freeList_exact recycling
  have hroom : (after recycling).liveCount < (after recycling).capacity := Nat.lt_succ_self 1
  exact ⟨hw, hlive.symm, (hallocate .void).2.2.1 hroom, (hfree 0).2.1 rfl, hpeak⟩

end Heap

end HeapScript
