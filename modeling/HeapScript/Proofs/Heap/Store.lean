import HeapScript.Proofs.Heap.Invariant

/-!
# Storing into the heap

What allocating and writing do to the data of the chunks in use, and that both keep
the representation invariant.

* `deref_allocate` and `deref_write` give the data of every chunk afterwards.
* `terminal_eq_ok` and `resolve_eq_ok`: following references ends at data that is
  no reference.
-/

namespace HeapScript

namespace Heap

variable {h h' : Heap} {i j : Nat} {v data : Value}

/-! ## Allocating -/

/-- On a well-formed heap a new chunk takes an index that was not in use. -/
theorem isUsed_allocate_fresh (hw : h.WellFormed) (v : Value) :
    h.isUsed (h.allocate v).1 = false := by
  rw [allocate]
  split
  · rename_i index rest hf
    exact ((hw.mem_freeList index).1 (by simp [hf])).2
  · rw [Bool.eq_false_iff]
    intro hu
    exact absurd (lt_capacity_of_isUsed hu) (Nat.lt_irrefl _)

theorem capacity_le_allocate (h : Heap) (v : Value) : h.capacity ≤ (h.allocate v).2.capacity := by
  rw [allocate, capacity, capacity]
  split
  · exact Nat.le_of_eq Array.size_setIfInBounds.symm
  · rw [Array.size_push]
    exact Nat.le_succ _

theorem getElem?_allocate (hw : h.WellFormed) (v : Value) (j : Nat) :
    (h.allocate v).2.chunks[j]? =
      if j = (h.allocate v).1 then some { data := v, used := true, marked := false }
      else h.chunks[j]? := by
  rw [allocate]
  split
  · rename_i index rest hf
    have hi : index < h.chunks.size := ((hw.mem_freeList index).1 (by simp [hf])).1
    split
    · rename_i e
      subst e
      exact Array.getElem?_setIfInBounds_self_of_lt hi
    · rename_i e
      exact Array.getElem?_setIfInBounds_ne (Ne.symm e)
  · show (h.chunks.push _)[j]? = _
    rw [Array.getElem?_push]

/-- The new chunk holds the value, the others hold what they held. -/
theorem deref_allocate (hw : h.WellFormed) (v : Value) (j : Nat) :
    (h.allocate v).2.deref j = if j = (h.allocate v).1 then .ok v else h.deref j := by
  rw [deref, getElem?_allocate hw]
  by_cases e : j = (h.allocate v).1
  · rw [if_pos e, if_pos e]
    rfl
  · rw [if_neg e, if_neg e]
    rfl

/-- A chunk in use keeps its data. -/
theorem deref_allocate_of_deref (hw : h.WellFormed) (hd : h.deref i = .ok data) (v : Value) :
    (h.allocate v).2.deref i = .ok data := by
  rw [deref_allocate hw, if_neg, hd]
  rintro rfl
  exact absurd (isUsed_of_deref hd) (Bool.eq_false_iff.1 (isUsed_allocate_fresh hw v))

theorem allocate_lt_capacity (hw : h.WellFormed) (v : Value) :
    (h.allocate v).1 < (h.allocate v).2.capacity := by
  have hd : (h.allocate v).2.deref (h.allocate v).1 = .ok v := by
    rw [deref_allocate hw, if_pos rfl]
  exact lt_capacity_of_isUsed (isUsed_of_deref hd)

theorem isUsed_allocate (hw : h.WellFormed) (v : Value) (j : Nat) :
    (h.allocate v).2.isUsed j = (h.isUsed j || j == (h.allocate v).1) := by
  rw [isUsed, getElem?_allocate hw]
  by_cases e : j = (h.allocate v).1
  · rw [if_pos e, beq_iff_eq.2 e, Bool.or_true]
  · rw [if_neg e, beq_eq_false_iff_ne.2 e, Bool.or_false]
    rfl

theorem WellFormed.allocate (hw : h.WellFormed) (v : Value) : (h.allocate v).2.WellFormed := by
  have hfresh := isUsed_allocate_fresh hw v
  refine ⟨fun j => ?_, ?_, fun j => ?_⟩
  · rw [isMarked, getElem?_allocate hw]
    by_cases e : j = (h.allocate v).1
    · rw [if_pos e]
    · rw [if_neg e]
      exact hw.unmarked j
  · rw [Heap.allocate]
    split
    · rename_i index rest hf
      have hn := hw.nodup
      rw [hf] at hn
      exact hn.of_cons
    · exact hw.nodup
  · rw [isUsed_allocate hw]
    have hmem := hw.mem_freeList j
    rw [Heap.allocate] at hfresh ⊢
    split
    · rename_i index rest hf
      have hn := hw.nodup
      rw [hf] at hmem hn
      have hcap : capacity ⟨h.chunks.setIfInBounds index ⟨v, true, false⟩, rest⟩ = h.capacity :=
        Array.size_setIfInBounds
      rw [hcap]
      rw [List.mem_cons] at hmem
      have hne : index ∉ rest := (List.nodup_cons.1 hn).1
      by_cases e : j = index
      · subst e
        simp [hne]
      · simpa [e] using hmem
    · rename_i hf
      rw [hf] at hmem
      have hcap : capacity { h with chunks := h.chunks.push ⟨v, true, false⟩ } = h.capacity + 1 :=
        Array.size_push _
      rw [hcap, hf]
      simp only [List.not_mem_nil, false_iff, not_and, Bool.not_eq_false] at hmem
      simp only [List.not_mem_nil, false_iff, not_and, Bool.not_eq_false]
      intro hj
      rcases Nat.lt_succ_iff_lt_or_eq.1 hj with hj | hj
      · rw [hmem hj]
        rfl
      · simp [hj, capacity]

/-! ## Writing -/

theorem write_eq_ok (hw : h.write i v = .ok h') : ∃ c, h.chunks[i]? = some c ∧ c.used = true ∧
    h' = { h with chunks := h.chunks.setIfInBounds i { c with data := v } } := by
  rw [write] at hw
  split at hw
  · cases hw
  · rename_i c hc
    split at hw
    · rename_i hu
      cases hw
      exact ⟨c, hc, hu, rfl⟩
    · cases hw

theorem getElem?_write (hw : h.write i v = .ok h') (j : Nat) :
    h'.chunks[j]? = if j = i then h.chunks[i]?.map ({ · with data := v }) else h.chunks[j]? := by
  obtain ⟨c, hc, -, rfl⟩ := write_eq_ok hw
  have hi := (Array.getElem?_eq_some_iff.1 hc).1
  split
  · rename_i e
    rw [e, hc]
    exact Array.getElem?_setIfInBounds_self_of_lt hi
  · rename_i e
    exact Array.getElem?_setIfInBounds_ne (Ne.symm e)

theorem capacity_write (hw : h.write i v = .ok h') : h'.capacity = h.capacity := by
  obtain ⟨c, -, -, rfl⟩ := write_eq_ok hw
  exact Array.size_setIfInBounds

theorem isUsed_write (hw : h.write i v = .ok h') (j : Nat) : h'.isUsed j = h.isUsed j := by
  rw [isUsed, getElem?_write hw]
  by_cases e : j = i
  · rw [if_pos e, e, isUsed]
    cases h.chunks[i]? <;> rfl
  · rw [if_neg e]
    rfl

/-- The chunk holds the new value, the others hold what they held. -/
theorem deref_write (hw : h.write i v = .ok h') (j : Nat) :
    h'.deref j = if j = i then .ok v else h.deref j := by
  obtain ⟨c, hc, hu, -⟩ := write_eq_ok hw
  rw [deref, getElem?_write hw]
  by_cases e : j = i
  · rw [if_pos e, if_pos e, hc]
    simp [hu]
  · rw [if_neg e, if_neg e]
    rfl

theorem WellFormed.write (hwf : h.WellFormed) (hw : h.write i v = .ok h') : h'.WellFormed := by
  have hfree : h'.freeList = h.freeList := by
    obtain ⟨c, -, -, rfl⟩ := write_eq_ok hw
    rfl
  refine ⟨fun j => ?_, hfree ▸ hwf.nodup, fun j => ?_⟩
  · have hj := hwf.unmarked j
    rw [isMarked, getElem?_write hw]
    by_cases e : j = i
    · rw [if_pos e]
      rw [e, isMarked] at hj
      cases hc : h.chunks[i]? with
      | none => rfl
      | some c => rwa [hc] at hj
    · rw [if_neg e]
      exact hj
  · rw [hfree, hwf.mem_freeList, capacity_write hw, isUsed_write hw]

/-! ## Following references -/

theorem follow_eq_ok {n : Nat} (hf : h.follow n i = .ok j) :
    ∃ data, h.deref j = .ok data ∧ ∀ k, data ≠ .ref k := by
  induction n generalizing i with
  | zero => cases hf
  | succ n ih =>
    rw [follow] at hf
    split at hf
    · cases hf
    · exact ih hf
    · rename_i data hnext hd
      cases hf
      exact ⟨data, hd, hnext⟩

theorem terminal_eq_ok (ht : h.terminal i = .ok j) :
    ∃ data, h.deref j = .ok data ∧ ∀ k, data ≠ .ref k :=
  follow_eq_ok ht

/-- The data that a value leads to is the value or lies in a chunk, and is no
reference. -/
theorem resolve_eq_ok (hr : h.resolve v = .ok data) :
    (data = v ∨ ∃ j, h.deref j = .ok data) ∧ ∀ k, data ≠ .ref k := by
  cases v with
  | ref index =>
    rw [resolve] at hr
    split at hr
    · cases hr
    · rename_i last hl
      obtain ⟨data', hd, hne⟩ := terminal_eq_ok hl
      rw [hd] at hr
      cases hr
      exact ⟨.inr ⟨last, hd⟩, hne⟩
  | _ =>
    cases hr
    exact ⟨.inl rfl, nofun⟩

end Heap

end HeapScript
