import HeapScript.Proofs.Heap.Mark

/-!
# A collection frees exactly what cannot be reached

* `collect_eq`: on a well-formed heap a collection is the release, one after the
  other and in increasing order, of the used chunks that cannot be reached from
  the roots (`Heap.unreachable`). These depend on the roots as a set.
* `collect_exact`: what this means for each chunk, for the invariant and for the
  number that a collection returns.
-/

namespace HeapScript

namespace Heap

/-! ## Releasing several chunks -/

@[simp] theorem capacity_freeAll (h : Heap) (is : List Nat) :
    (h.freeAll is).capacity = h.capacity := by
  induction is generalizing h with
  | nil => rfl
  | cons i is ih => rw [freeAll, List.foldl_cons, ← freeAll, ih, capacity_free]

theorem isUsed_freeAll (h : Heap) (is : List Nat) (j : Nat) :
    (h.freeAll is).isUsed j = true ↔ h.isUsed j = true ∧ j ∉ is := by
  induction is generalizing h with
  | nil => simp [freeAll]
  | cons i is ih =>
    rw [freeAll, List.foldl_cons, ← freeAll, ih, isUsed_free, Bool.and_eq_true, bne_iff_ne,
      List.mem_cons, not_or, and_assoc]

theorem deref_freeAll {h : Heap} {is : List Nat} {j : Nat} (hj : j ∉ is) :
    (h.freeAll is).deref j = h.deref j := by
  induction is generalizing h with
  | nil => rfl
  | cons i is ih =>
    rw [List.mem_cons, not_or] at hj
    rw [freeAll, List.foldl_cons, ← freeAll, ih hj.2, deref_free (Ne.symm hj.1)]

theorem WellFormed.freeAll {h : Heap} (hw : h.WellFormed) (is : List Nat) :
    (h.freeAll is).WellFormed := by
  induction is generalizing h with
  | nil => exact hw
  | cons i is ih => exact ih (hw.free i)

/-! ## Sweeping -/

theorem garbage_eq (h : Heap) :
    h.garbage = (List.range h.capacity).filter fun i => h.isUsed i && !h.isMarked i := by
  refine List.filter_congr fun i _ => ?_
  rw [isUsed, isMarked]
  cases h.chunks[i]? <;> rfl

/-- Marks are only ever set on used chunks. -/
theorem isUsed_of_isMarked_mark {h : Heap} (hm : ∀ i, h.isMarked i = false) {work : List Nat}
    {i : Nat} (hi : (h.mark work).isMarked i) : h.isUsed i = true := by
  rcases isMarked_mark_sound (P := fun _ => True) h work (fun _ _ _ _ _ _ => trivial)
    (fun _ _ => trivial) hi with hi | hi
  · rw [hm i] at hi
    cases hi
  · exact hi.1

theorem clearMarks_withMarks {h : Heap} (hm : ∀ i, h.isMarked i = false) {marks : Nat → Bool}
    (hu : ∀ i, marks i → h.isUsed i = true) : (h.withMarks marks).clearMarks = h := by
  refine ext_chunks (fun i => ?_) rfl
  rw [clearMarks, Array.getElem?_map, getElem?_withMarks]
  have hm := hm i
  have hu := hu i
  rw [isMarked] at hm
  rw [isUsed] at hu
  rcases hc : h.chunks[i]? with _ | ⟨data, used, marked⟩
  · rfl
  · rw [hc] at hm hu
    cases used <;> simp_all

/-- Clearing the marks that a collection set gives back the heap it started on. -/
theorem clearMarks_mark {h : Heap} (hm : ∀ i, h.isMarked i = false) (work : List Nat) :
    (h.mark work).clearMarks = h := by
  rw [mark_eq_withMarks]
  exact clearMarks_withMarks hm fun i => isUsed_of_isMarked_mark hm

open Classical in
/-- The used chunks that cannot be reached from the roots, in increasing order. -/
noncomputable def unreachable (h : Heap) (roots : List Value) : List Nat :=
  (List.range h.capacity).filter fun i => h.isUsed i && !decide (h.Reach roots i)

theorem mem_unreachable {h : Heap} {roots : List Value} {i : Nat} :
    i ∈ h.unreachable roots ↔ h.isUsed i = true ∧ ¬ h.Reach roots i := by
  rw [unreachable, List.mem_filter, List.mem_range, Bool.and_eq_true, Bool.not_eq_true',
    decide_eq_false_iff_not]
  exact ⟨And.right, fun hi => ⟨lt_capacity_of_isUsed hi.1, hi⟩⟩

@[simp] theorem capacity_mark (h : Heap) (work : List Nat) :
    (h.mark work).capacity = h.capacity := by
  rw [mark_eq_withMarks]
  simp [withMarks, capacity]

theorem garbage_mark {h : Heap} (hm : ∀ i, h.isMarked i = false) (roots : List Value) :
    (h.mark (Value.refsAll roots)).garbage = h.unreachable roots := by
  rw [garbage_eq, capacity_mark, unreachable]
  refine List.filter_congr fun i _ => ?_
  rw [isUsed_mark]
  cases hu : h.isUsed i with
  | false => rfl
  | true =>
    have hmark := isMarked_mark_iff hm roots i
    rw [Bool.true_and, Bool.true_and, Bool.eq_iff_iff, Bool.not_eq_true', Bool.not_eq_true',
      decide_eq_false_iff_not, ← Bool.not_eq_true, hmark]
    simp [hu]

/-- A collection releases the chunks that cannot be reached. -/
theorem collect_eq {h : Heap} (hw : h.WellFormed) (roots : List Value) :
    h.collect roots =
      ((h.unreachable roots).length, h.freeAll (h.unreachable roots)) := by
  rw [collect, sweep, garbage_mark hw.unmarked, clearMarks_mark hw.unmarked]

theorem isUsed_collect {h : Heap} (hw : h.WellFormed) (roots : List Value) (i : Nat) :
    (h.collect roots).2.isUsed i = true ↔ h.isUsed i = true ∧ h.Reach roots i := by
  rw [collect_eq hw, isUsed_freeAll, mem_unreachable, not_and, Classical.not_not]
  exact ⟨fun hi => ⟨hi.1, hi.2 hi.1⟩, fun hi => ⟨hi.1, fun _ => hi.2⟩⟩

/-- A chunk that survives a collection keeps its data. -/
theorem deref_collect {h : Heap} (hw : h.WellFormed) {roots : List Value} {i : Nat}
    (hu : (h.collect roots).2.isUsed i = true) : (h.collect roots).2.deref i = h.deref i := by
  have hi := (isUsed_collect hw roots i).1 hu
  rw [collect_eq hw]
  exact deref_freeAll fun hmem => (mem_unreachable.1 hmem).2 hi.2

/-- What can be read after a collection could be read before. -/
theorem deref_of_collect {h : Heap} (hw : h.WellFormed) {roots : List Value} {i : Nat}
    {data : Value} (hd : (h.collect roots).2.deref i = .ok data) : h.deref i = .ok data := by
  rw [← deref_collect hw (isUsed_of_deref hd)]
  exact hd

theorem WellFormed.collect {h : Heap} (hw : h.WellFormed) (roots : List Value) :
    (h.collect roots).2.WellFormed := by
  rw [collect_eq hw]
  exact hw.freeAll _

theorem capacity_collect {h : Heap} (hw : h.WellFormed) (roots : List Value) :
    (h.collect roots).2.capacity = h.capacity := by
  rw [collect_eq hw, capacity_freeAll]

theorem unreachable_congr (h : Heap) {roots roots' : List Value}
    (hr : ∀ v, v ∈ roots ↔ v ∈ roots') : h.unreachable roots = h.unreachable roots' := by
  refine List.filter_congr fun i _ => ?_
  have hiff : h.Reach roots i ↔ h.Reach roots' i :=
    ⟨.congr fun v => (hr v).1, .congr fun v => (hr v).2⟩
  rw [decide_eq_decide.2 hiff]

/-- The chunks freed are those in use before and not after. -/
theorem unreachable_eq_filter (h : Heap) (roots : List Value) :
    h.unreachable roots = (List.range h.capacity).filter fun i =>
      h.isUsed i && !(h.freeAll (h.unreachable roots)).isUsed i := by
  refine List.filter_congr fun i _ => ?_
  have hafter := isUsed_freeAll h (h.unreachable roots) i
  rw [mem_unreachable] at hafter
  by_cases hu : h.isUsed i = true
  · by_cases hr : h.Reach roots i <;> simp_all
  · simp_all

/-- A collection on a well-formed heap keeps exactly the used chunks that can be
reached from the roots, with their data, in a well-formed heap of the same
capacity; it returns how many chunks went from used to free; and it gives the
same heap, the order of the free list included, for roots in any other order or
number. -/
theorem collect_exact {h : Heap} (hw : h.WellFormed) (roots : List Value) :
    (∀ i, (h.collect roots).2.isUsed i = true ↔ h.isUsed i = true ∧ h.Reach roots i) ∧
    (∀ i, (h.collect roots).2.isUsed i = true →
      (h.collect roots).2.deref i = h.deref i) ∧
    (h.collect roots).2.WellFormed ∧
    (h.collect roots).2.capacity = h.capacity ∧
    (h.collect roots).1 = ((List.range h.capacity).filter fun i =>
      h.isUsed i && !(h.collect roots).2.isUsed i).length ∧
    ∀ roots', (∀ v, v ∈ roots ↔ v ∈ roots') → h.collect roots' = h.collect roots := by
  refine ⟨isUsed_collect hw roots, fun i hi => deref_collect hw hi, hw.collect roots,
    capacity_collect hw roots, ?_, fun roots' hr => ?_⟩
  · rw [collect_eq hw, ← unreachable_eq_filter]
  · rw [collect_eq hw, collect_eq hw, unreachable_congr h hr]

/-- A heap with a cycle through a member, a receiver and an element (chunks 0 and
1), a reference to no chunk, garbage that refers to itself (chunk 2) and a free
chunk. -/
def knot : Heap where
  chunks := #[
    ⟨.object "Node" [⟨"next", .var, true⟩, ⟨"act", .func, false⟩]
      [.ref 9, .function { definition := ⟨[], .var, false, false, .nop 1, 1⟩, receiver := some 1 }],
      true, false⟩,
    ⟨.array .var [.array .var [.ref 0, .ref 3]], true, false⟩,
    ⟨.ref 2, true, false⟩,
    ⟨.void, false, false⟩]
  freeList := [3]

theorem knot_wellFormed : knot.WellFormed where
  unmarked
    | 0 | 1 | 2 | 3 | _ + 4 => rfl
  nodup := by decide
  mem_freeList
    | 0 | 1 | 2 | 3 => by decide
    | i + 4 => by
      refine ⟨fun hi => by simp [knot] at hi, fun hi => ?_⟩
      exact absurd hi.1 (show ¬ i + 4 < 4 by omega)

/-- The cycle survives from a root that enters it, and naming the root twice makes
no difference. -/
theorem collect_exact_knot :
    knot.WellFormed ∧ (knot.collect [.ref 0]).2.isUsed 1 = true ∧
      (∀ i, (knot.collect [.ref 0]).2.isUsed i = true →
        (knot.collect [.ref 0]).2.deref i = knot.deref i) ∧
      knot.collect [.ref 0, .ref 0] = knot.collect [.ref 0] := by
  have hreach : knot.Reach [.ref 0] 1 :=
    .step (.root List.mem_cons_self (.ref 0)) rfl
      (.member (List.mem_cons_of_mem _ List.mem_cons_self) (.receiver rfl))
  obtain ⟨hused, hdata, -, -, -, hset⟩ := collect_exact knot_wellFormed [.ref 0]
  exact ⟨knot_wellFormed, (hused 1).2 ⟨rfl, hreach⟩, hdata, hset _ (by simp)⟩

end Heap

end HeapScript
