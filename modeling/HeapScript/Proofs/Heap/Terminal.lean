import HeapScript.Proofs.Heap.Chain
import HeapScript.Proofs.Heap.History
import Mathlib.Logic.Relation

/-!
# The ends of chains of references

A chunk that holds a reference leads to one other chunk, so the chain from a chunk goes on
in one way only: it ends at data, it ends where nothing is in use, or it comes back to a
chunk it has passed.

* `Heap.Points` is a single reference between chunks. The chain from `i` comes to `m` if
  `ReflTransGen h.Points i m`, and `Heap.Circles` if it comes back.
* `Trail` is the way along a chain that has met no chunk twice. It is no longer than the
  chunks in use are many, so `follow_cases`: after as many steps as the heap has chunks the
  chain has ended or come back.
* `terminal_exact` is what following references gives for each of the three ways.
-/

namespace HeapScript

namespace Heap

open Relation (ReflTransGen TransGen)

variable {h : Heap} {i j k m n : Nat} {d : Value} {e : HeapError} {path : List Nat}

/-- The first chunk is in use and holds a reference to the second. -/
def Points (h : Heap) (i j : Nat) : Prop := h.deref i = .ok (.ref j)

/-- The chain from a chunk comes to a chunk that leads back to itself. -/
def Circles (h : Heap) (i : Nat) : Prop :=
  ∃ c, ReflTransGen h.Points i c ∧ TransGen h.Points c c

/-- No reference leads on from a chunk. -/
def IsEnd (h : Heap) (m : Nat) : Prop := ∀ j, ¬h.Points m j

theorem Points.isUsed (hp : h.Points i j) : h.isUsed i = true := isUsed_of_deref hp

theorem rightUnique_points (h : Heap) : Relator.RightUnique h.Points := by
  intro i j k hj hk
  rw [Points] at hj hk
  rw [hj] at hk
  cases hk
  rfl

theorem isEnd_of_data (hd : h.deref m = .ok d) (hr : ¬d.IsRef) : h.IsEnd m := by
  intro j hp
  rw [Points, hd] at hp
  cases hp
  exact hr ⟨j, rfl⟩

theorem isEnd_of_error (he : h.deref m = .error e) : h.IsEnd m := by
  intro j hp
  rw [Points, he] at hp
  cases hp

/-! ## One way to go on -/

/-- A chain that ends comes to nothing behind its end. -/
theorem IsEnd.eq (hm : h.IsEnd m) (hc : ReflTransGen h.Points m k) : k = m := by
  rcases hc.cases_head with rfl | ⟨j, hj, -⟩
  · rfl
  · exact absurd hj (hm j)

theorem IsEnd.unique (hk : h.IsEnd k) (hm : h.IsEnd m) (hik : ReflTransGen h.Points i k)
    (him : ReflTransGen h.Points i m) : k = m := by
  rcases hik.total_of_right_unique (rightUnique_points h) him with hkm | hmk
  · exact (hk.eq hkm).symm
  · exact hm.eq hmk

/-- What a chunk that leads back to itself leads to does so too. -/
theorem circle_forward (hc : TransGen h.Points i i) (hj : ReflTransGen h.Points i j) :
    TransGen h.Points j j := by
  induction hj with
  | refl => exact hc
  | tail _ hp ih =>
    obtain ⟨x, hx, hback⟩ := TransGen.head'_iff.1 ih
    obtain rfl := rightUnique_points h hp hx
    exact TransGen.tail' hback hp

/-- A chain that ends does not come back. -/
theorem IsEnd.not_circles (hm : h.IsEnd m) (him : ReflTransGen h.Points i m) : ¬h.Circles i := by
  rintro ⟨c, hic, hcc⟩
  have hcm : ReflTransGen h.Points c m := by
    rcases hic.total_of_right_unique (rightUnique_points h) him with hcm | hmc
    · exact hcm
    · rw [hm.eq hmc]
  obtain ⟨j, hj, -⟩ := TransGen.head'_iff.1 (circle_forward hcc hcm)
  exact hm j hj

/-- A chain that comes back goes on, and comes back from there. -/
theorem Circles.next (hi : h.Circles i) : ∃ j, h.Points i j ∧ h.Circles j := by
  obtain ⟨c, hic, hcc⟩ := hi
  rcases hic.cases_head with rfl | ⟨j, hj, hjc⟩
  · obtain ⟨j, hj, hback⟩ := TransGen.head'_iff.1 hcc
    exact ⟨j, hj, i, hback, hcc⟩
  · exact ⟨j, hj, c, hjc, hcc⟩

theorem Circles.of_points (hp : h.Points i j) (hj : h.Circles j) : h.Circles i :=
  have ⟨c, hjc, hcc⟩ := hj
  ⟨c, .head hp hjc, hcc⟩

theorem leads_iff : h.Leads i k ↔
    ReflTransGen h.Points i k ∧ ∃ d, h.deref k = .ok d ∧ ¬d.IsRef := by
  constructor
  · intro hk
    refine ⟨?_, hk.deref⟩
    obtain ⟨n, hk⟩ := hk
    induction hk with
    | here _ _ => exact .refl
    | next hd _ ih => exact .head hd ih
  · rintro ⟨hik, d, hd, hr⟩
    induction hik using ReflTransGen.head_induction_on with
    | refl => exact .here hd hr
    | head hp _ ih => exact .next hp ih

/-! ## Following references -/

theorem follow_succ_of_points (hp : h.Points i j) (n : Nat) : h.follow (n + 1) i = h.follow n j := by
  rw [Points] at hp
  rw [follow, hp]

/-- However long a chain that comes back is followed, it is cut off at a chunk in use. -/
theorem Circles.follow (hi : h.Circles i) (n : Nat) :
    ∃ m, h.follow n i = .error (.notOnHeap m) ∧ h.isUsed m = true := by
  obtain ⟨j, hp, hj⟩ := hi.next
  induction n generalizing i j with
  | zero => exact ⟨i, rfl, hp.isUsed⟩
  | succ n ih =>
    obtain ⟨k, hpk, hk⟩ := hj.next
    rw [follow_succ_of_points hp]
    exact ih hj k hpk hk

/-- A way along a chain to a chunk: different chunks in use, each of which leads there. -/
structure Trail (h : Heap) (path : List Nat) (i : Nat) : Prop extends h.Distinct path where
  leads : ∀ j ∈ path, TransGen h.Points j i

theorem trail_nil (h : Heap) (i : Nat) : h.Trail [] i where
  toDistinct := distinct_nil h
  leads := by simp

theorem Trail.cons (ht : h.Trail path i) (hi : i ∉ path) (hp : h.Points i j) :
    h.Trail (i :: path) j where
  toDistinct := ht.toDistinct.cons hi hp.isUsed
  leads := List.forall_mem_cons.2 ⟨.single hp, fun j hj => (ht.leads j hj).tail hp⟩

/-- A chain that is followed further than the heap has chunks, counting those on the way
to where it is taken up, has ended or come back. The way grows by a chunk with each step,
and cannot grow past the capacity. -/
theorem follow_cases (ht : h.Trail path i) (hn : h.capacity < n + path.length) :
    (∃ k, h.Leads i k) ∨
      (∃ m e, ReflTransGen h.Points i m ∧ h.deref m = .error e ∧ h.follow n i = .error e) ∨
      h.Circles i := by
  induction n generalizing i path with
  | zero =>
    have hle := ht.length_le
    have hcapacity := length_inUse_le h
    omega
  | succ n ih =>
    cases hd : h.deref i with
    | error e => exact .inr (.inl ⟨i, e, .refl, hd, by rw [follow, hd]⟩)
    | ok d =>
      by_cases hr : d.IsRef
      · obtain ⟨j, rfl⟩ := hr
        by_cases hi : i ∈ path
        · exact .inr (.inr ⟨i, .refl, ht.leads i hi⟩)
        · have hlength : h.capacity < n + (i :: path).length := by
            rw [List.length_cons]
            omega
          rcases ih (ht.cons hi hd) hlength with ⟨k, hk⟩ | ⟨m, e, hm, he, hf⟩ | hj
          · exact .inl ⟨k, hk.next hd⟩
          · exact .inr (.inl ⟨m, e, .head hd hm, he, by rw [follow_succ_of_points hd, hf]⟩)
          · exact .inr (.inr (hj.of_points hd))
      · exact .inl ⟨i, .here hd hr⟩

theorem terminal_cases (h : Heap) (i : Nat) : (∃ k, h.Leads i k) ∨
    (∃ m e, ReflTransGen h.Points i m ∧ h.deref m = .error e ∧ h.terminal i = .error e) ∨
    h.Circles i :=
  follow_cases (trail_nil h i) (by simp)

/-- A chain that ends where nothing is in use gives the error of reading there. -/
theorem terminal_of_error (hm : ReflTransGen h.Points i m) (he : h.deref m = .error e) :
    h.terminal i = .error e := by
  have hend := isEnd_of_error he
  rcases terminal_cases h i with ⟨k, hk⟩ | ⟨m', e', hm', he', ht⟩ | hi
  · obtain ⟨hik, d, hd, hr⟩ := leads_iff.1 hk
    obtain rfl := hend.unique (isEnd_of_data hd hr) hm hik
    rw [hd] at he
    cases he
  · obtain rfl := hend.unique (isEnd_of_error he') hm hm'
    rw [he] at he'
    cases he'
    exact ht
  · exact absurd hi (hend.not_circles hm)

theorem Circles.terminal (hi : h.Circles i) :
    ∃ m, h.terminal i = .error (.notOnHeap m) ∧ h.isUsed m = true :=
  hi.follow _

theorem terminal_eq_error (ht : h.terminal i = .error e) :
    (∃ m, ReflTransGen h.Points i m ∧ h.deref m = .error e) ∨
      h.Circles i ∧ ∃ m, e = .notOnHeap m ∧ h.isUsed m = true := by
  rcases terminal_cases h i with ⟨k, hk⟩ | ⟨m, e', hm, he, ht'⟩ | hi
  · rw [terminal_eq_ok_iff.2 hk] at ht
    cases ht
  · rw [ht] at ht'
    cases ht'
    exact .inl ⟨m, hm, he⟩
  · obtain ⟨m, ht', hu⟩ := hi.terminal
    rw [ht] at ht'
    cases ht'
    exact .inr ⟨hi, m, rfl, hu⟩

theorem deref_nullPointer_iff : h.deref i = .error (.nullPointer m) ↔
    i = m ∧ i < h.capacity ∧ h.isUsed i = false := by
  rw [deref_eq_error_iff]
  by_cases hi : i < h.capacity
  · rw [if_pos hi, HeapError.nullPointer.injEq]
    constructor
    · rintro ⟨hu, rfl⟩
      exact ⟨rfl, hi, hu⟩
    · rintro ⟨rfl, -, hu⟩
      exact ⟨hu, rfl⟩
  · simp [hi]

theorem deref_notOnHeap_iff : h.deref i = .error (.notOnHeap m) ↔ i = m ∧ h.capacity ≤ i := by
  rw [deref_eq_error_iff]
  by_cases hi : i < h.capacity
  · simp [hi, Nat.not_le.2 hi]
  · have hu : h.isUsed i = false := Bool.eq_false_iff.2 fun hu => hi (lt_capacity_of_isUsed hu)
    simp [hi, hu, Nat.not_lt.1 hi, eq_comm]

/-- Following the chain of references from a chunk gives the chunk with data at which it
ends. If it ends at an index where nothing is in use, the error names this index, and says
whether there is a chunk at all. Otherwise the chain comes back to itself, and the error
names one of its chunks. There is no other error. -/
theorem terminal_exact (h : Heap) (i : Nat) :
    (∀ k, h.terminal i = .ok k ↔
      ReflTransGen h.Points i k ∧ ∃ d, h.deref k = .ok d ∧ ¬d.IsRef) ∧
    (∀ m, h.terminal i = .error (.nullPointer m) ↔
      ReflTransGen h.Points i m ∧ m < h.capacity ∧ h.isUsed m = false) ∧
    (∀ m, h.terminal i = .error (.notOnHeap m) ∧ h.capacity ≤ m ↔
      ReflTransGen h.Points i m ∧ h.capacity ≤ m) ∧
    ((∃ m, h.terminal i = .error (.notOnHeap m) ∧ h.isUsed m = true) ↔ h.Circles i) ∧
    ((∃ e, h.terminal i = .error e) ↔
      (∃ m, ReflTransGen h.Points i m ∧ h.isUsed m = false) ∨ h.Circles i) := by
  refine ⟨fun k => terminal_eq_ok_iff.trans leads_iff, fun m => ⟨fun ht => ?_, ?_⟩,
    fun m => ⟨?_, ?_⟩, ⟨?_, Circles.terminal⟩, ⟨?_, ?_⟩⟩
  · rcases terminal_eq_error ht with ⟨m', hm, he⟩ | ⟨-, m', ⟨⟩, -⟩
    obtain ⟨rfl, hm'⟩ := deref_nullPointer_iff.1 he
    exact ⟨hm, hm'⟩
  · rintro ⟨hm, hm'⟩
    exact terminal_of_error hm (deref_nullPointer_iff.2 ⟨rfl, hm'⟩)
  · rintro ⟨ht, hle⟩
    rcases terminal_eq_error ht with ⟨m', hm, he⟩ | ⟨-, m', ⟨⟩, hu⟩
    · obtain ⟨rfl, -⟩ := deref_notOnHeap_iff.1 he
      exact ⟨hm, hle⟩
    · exact absurd (lt_capacity_of_isUsed hu) (Nat.not_lt.2 hle)
  · rintro ⟨hm, hle⟩
    exact ⟨terminal_of_error hm (deref_notOnHeap_iff.2 ⟨rfl, hle⟩), hle⟩
  · rintro ⟨m, ht, hu⟩
    rcases terminal_eq_error ht with ⟨m', -, he⟩ | ⟨hi, -⟩
    · obtain ⟨rfl, hle⟩ := deref_notOnHeap_iff.1 he
      exact absurd (lt_capacity_of_isUsed hu) (Nat.not_lt.2 hle)
    · exact hi
  · rintro ⟨e, ht⟩
    rcases terminal_eq_error ht with ⟨m, hm, he⟩ | ⟨hi, -⟩
    · exact .inl ⟨m, hm, (deref_eq_error_iff.1 he).1⟩
    · exact .inr hi
  · rintro (⟨m, hm, hu⟩ | hi)
    · exact ⟨_, terminal_of_error hm (deref_of_not_isUsed hu)⟩
    · obtain ⟨m, ht, -⟩ := hi.terminal
      exact ⟨_, ht⟩

end Heap

end HeapScript
