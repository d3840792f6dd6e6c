import HeapScript.Proofs.Heap.Chain
import HeapScript.Proofs.Value.References

/-!
# Heaps that agree

What can be observed of a value depends on the chunks that can be reached from it.

* `Heap.AgreeOn`: two heaps read the same at every index of a set that is closed under
  references, also where there is nothing to read.
* Then following references (`AgreeOn.resolve`), the type of a value (`AgreeOn.hasType`)
  and its text (`AgreeOn.display`) are the same for every value that mentions indices of
  that set only. Each of them takes its own way through the heap, so each has its own
  induction.
* `agreeOn_collect`: a heap and what a collection leaves of it agree on what can be
  reached from the roots.
-/

namespace HeapScript

namespace Heap

/-! ## Agreement on a set of indices -/

/-- Two heaps of one capacity read the same at every index of a set, and what is read
there mentions no other index. -/
structure AgreeOn (h h' : Heap) (P : Nat → Prop) : Prop where
  capacity : h'.capacity = h.capacity
  deref {i : Nat} : P i → h'.deref i = h.deref i
  closed {i j : Nat} {data : Value} : P i → h.deref i = .ok data → data.Mentions j → P j

namespace AgreeOn

variable {h h' : Heap} {P : Nat → Prop} {i j : Nat} {v w data : Value} {t : Ty}

theorem symm (ha : h.AgreeOn h' P) : h'.AgreeOn h P where
  capacity := ha.capacity.symm
  deref hi := (ha.deref hi).symm
  closed hi hd := ha.closed hi (by rw [← ha.deref hi, hd])

theorem follow (ha : h.AgreeOn h' P) (n : Nat) (hi : P i) : h'.follow n i = h.follow n i := by
  induction n generalizing i with
  | zero => rfl
  | succ n ih =>
    rw [Heap.follow, Heap.follow, ha.deref hi]
    split
    · rfl
    · rename_i next hd
      exact ih (ha.closed hi hd (.ref next))
    · rfl

theorem terminal (ha : h.AgreeOn h' P) (hi : P i) : h'.terminal i = h.terminal i := by
  rw [Heap.terminal, Heap.terminal, ha.capacity, ha.follow _ hi]

/-- A chain of references does not leave the set. -/
theorem mem_of_leads (ha : h.AgreeOn h' P) (hi : P i) (hk : h.Leads i j) : P j := by
  obtain ⟨n, hk⟩ := hk
  induction hk with
  | here => exact hi
  | next hd _ ih => exact ih (ha.closed hi hd (.ref _))

theorem resolve (ha : h.AgreeOn h' P) (hv : ∀ i, v.Mentions i → P i) :
    h'.resolve v = h.resolve v := by
  cases v with
  | ref index =>
    have hi := hv index (.ref index)
    rw [Heap.resolve, Heap.resolve, ha.terminal hi]
    split
    · rfl
    · rename_i last hlast
      exact ha.deref (ha.mem_of_leads hi (terminal_eq_ok_iff.1 hlast))
  | _ => rfl

theorem typeOf (ha : h.AgreeOn h' P) (hv : ∀ i, v.Mentions i → P i) : h'.typeOf v = h.typeOf v := by
  rw [Heap.typeOf, Heap.typeOf, ha.resolve hv]

theorem hasType_mono (ha : h.AgreeOn h' P) (hv : ∀ i, v.Mentions i → P i) (ht : h.HasType v t) :
    h'.HasType v t := by
  induction ht with
  | data hr => exact .data hr
  | next hd _ ih =>
    have hi := hv _ (.ref _)
    exact .next (by rw [ha.deref hi, hd]) (ih fun _ => ha.closed hi hd)
  | null hd => exact .null (by rw [ha.deref (hv _ (.ref _)), hd])

theorem hasType (ha : h.AgreeOn h' P) (hv : ∀ i, v.Mentions i → P i) :
    h'.HasType v t ↔ h.HasType v t :=
  ⟨ha.symm.hasType_mono hv, ha.hasType_mono hv⟩

/-- A reference is written the same, however deep and whatever is being shown already. -/
theorem renderRef (ha : h.AgreeOn h' P) (depth : Nat) (visiting : List Nat) (hi : P i) :
    h'.renderRef depth visiting i = h.renderRef depth visiting i := by
  induction depth generalizing visiting i with
  | zero => rw [Heap.renderRef, Heap.renderRef, ha.deref hi]
  | succ depth ih =>
    rw [Heap.renderRef, Heap.renderRef, ha.deref hi]
    split
    · rfl
    · split
      · rfl
      · rename_i data hd
        exact Value.render_congr data fun j hj => ih _ (ha.closed hi hd (hj.mentions (.ref j)))

theorem display (ha : h.AgreeOn h' P) (hv : ∀ i, v.Mentions i → P i) :
    h'.display v = h.display v := by
  rw [Heap.display, Heap.display, ha.capacity]
  exact Value.render_congr v fun i hi => ha.renderRef _ _ (hv i (hi.mentions (.ref i)))

end AgreeOn

/-! ## Collections -/

variable {h : Heap}

theorem deref_collect_of_reach (hw : h.WellFormed) {roots : List Value} {i : Nat}
    (hr : h.Reach roots i) : (h.collect roots).2.deref i = h.deref i := by
  have hused := isUsed_collect hw roots i
  by_cases hu : h.isUsed i = true
  · exact deref_collect hw (hused.2 ⟨hu, hr⟩)
  · have hu' : (h.collect roots).2.isUsed i = false :=
      Bool.eq_false_iff.2 fun hc => hu (hused.1 hc).1
    rw [deref_of_not_isUsed (Bool.eq_false_iff.2 hu), deref_of_not_isUsed hu', capacity_collect hw]

/-- A collection changes nothing at the indices that can be reached from the roots,
whether they are in use or not. -/
theorem agreeOn_collect (hw : h.WellFormed) (roots : List Value) :
    h.AgreeOn (h.collect roots).2 (h.Reach roots) where
  capacity := capacity_collect hw roots
  deref := deref_collect_of_reach hw
  closed := .step

end Heap

end HeapScript
