import HeapScript.Proofs.Heap.Invariant

/-!
# What a collection marks

The chunks that a list of values keeps alive, and the proof that marking finds
exactly those:

* `Value.Mentions`: a value names a chunk, by a reference or a receiver at any
  depth inside it. `Value.refs` lists these chunks (`mem_refs_iff`);
* `Heap.Reach`: a chunk can be reached from root values, through used chunks only;
* `isMarked_mark_iff`: on a heap without marks, marking from the chunks that the
  roots mention marks the used chunks that can be reached. Nothing else changes
  (`withMarks_mark`).

Marking keeps an invariant (`Heap.Closed`): a used chunk that a marked chunk
mentions is marked or still on the worklist. Once the list is empty, the marked
chunks are closed under references.
-/

namespace HeapScript

/-! ## Chunks named by a value -/

/-- A value names a chunk without crossing into the heap. -/
inductive Value.Mentions : Value → Nat → Prop
  | ref (index : Nat) : Mentions (.ref index) index
  | element {tag : Ty} {items : List Value} {v : Value} {index : Nat} :
    v ∈ items → Mentions v index → Mentions (.array tag items) index
  | member {className : String} {layout : List Param} {members : List Value} {v : Value}
    {index : Nat} : v ∈ members → Mentions v index →
      Mentions (.object className layout members) index
  | receiver {f : FunctionValue} {index : Nat} : f.receiver = some index →
      Mentions (.function f) index

namespace Value

mutual

theorem mentions_of_mem_refs {i : Nat} : ∀ v : Value, i ∈ v.refs → v.Mentions i
  | ref index, h => by
    rw [refs, List.mem_singleton] at h
    exact h ▸ .ref index
  | array _ items, h => by
    obtain ⟨v, hv, hm⟩ := mentions_of_mem_refsAll items h
    exact .element hv hm
  | object _ _ members, h => by
    obtain ⟨v, hv, hm⟩ := mentions_of_mem_refsAll members h
    exact .member hv hm
  | function f, h => .receiver (by simpa [refs] using h)
  | num _, h | str _, h | bool _, h | classDef _, h | ident _, h | void, h | unknown, h => by
    simp [refs] at h

theorem mentions_of_mem_refsAll {i : Nat} :
    ∀ vs : List Value, i ∈ refsAll vs → ∃ v ∈ vs, v.Mentions i
  | [], h => by simp [refsAll] at h
  | v :: vs, h => by
    rw [refsAll, List.mem_append] at h
    rcases h with h | h
    · exact ⟨v, List.mem_cons_self, mentions_of_mem_refs v h⟩
    · obtain ⟨w, hw, hm⟩ := mentions_of_mem_refsAll vs h
      exact ⟨w, List.mem_cons_of_mem _ hw, hm⟩

end

theorem mem_refsAll {i : Nat} {vs : List Value} : i ∈ refsAll vs ↔ ∃ v ∈ vs, i ∈ v.refs := by
  rw [refsAll_eq_flatMap, List.mem_flatMap]

theorem Mentions.mem_refs {v : Value} {i : Nat} (h : v.Mentions i) : i ∈ v.refs := by
  induction h with
  | ref index => simp [refs]
  | element hv _ ih => exact mem_refsAll.2 ⟨_, hv, ih⟩
  | member hv _ ih => exact mem_refsAll.2 ⟨_, hv, ih⟩
  | receiver hf => simp [refs, hf]

/-- The chunks listed for a value are those it names. -/
theorem mem_refs_iff {v : Value} {i : Nat} : i ∈ v.refs ↔ v.Mentions i :=
  ⟨mentions_of_mem_refs v, Mentions.mem_refs⟩

end Value

namespace Heap

/-- A chunk can be reached from root values. The chunks on the way are in use; the
chunk itself need not be. -/
inductive Reach (h : Heap) (roots : List Value) : Nat → Prop
  | root {v : Value} {i : Nat} : v ∈ roots → v.Mentions i → Reach h roots i
  | step {i j : Nat} {data : Value} : Reach h roots i → h.deref i = .ok data →
      data.Mentions j → Reach h roots j

/-- What can be reached depends on the roots as a set. -/
theorem Reach.congr {h : Heap} {roots roots' : List Value} (hr : ∀ v, v ∈ roots → v ∈ roots')
    {i : Nat} (hi : h.Reach roots i) : h.Reach roots' i := by
  induction hi with
  | root hv hm => exact .root (hr _ hv) hm
  | step _ hd hm ih => exact .step ih hd hm

/-! ## Marks -/

/-- The heap with other marks. -/
def withMarks (h : Heap) (marks : Nat → Bool) : Heap :=
  { h with chunks := h.chunks.mapIdx fun i c => { c with marked := marks i } }

@[simp] theorem getElem?_withMarks (h : Heap) (marks : Nat → Bool) (i : Nat) :
    (h.withMarks marks).chunks[i]? = h.chunks[i]?.map fun c => { c with marked := marks i } := by
  simp [withMarks]

@[simp] theorem isUsed_withMarks (h : Heap) (marks : Nat → Bool) (i : Nat) :
    (h.withMarks marks).isUsed i = h.isUsed i := by
  rw [isUsed, isUsed, getElem?_withMarks]
  cases h.chunks[i]? <;> rfl

@[simp] theorem deref_withMarks (h : Heap) (marks : Nat → Bool) (i : Nat) :
    (h.withMarks marks).deref i = h.deref i := by
  rw [deref, deref, getElem?_withMarks]
  cases h.chunks[i]? <;> rfl

@[simp] theorem withMarks_withMarks (h : Heap) (f g : Nat → Bool) :
    (h.withMarks f).withMarks g = h.withMarks g := by
  refine ext_chunks (fun i => ?_) rfl
  simp only [getElem?_withMarks, Option.map_map]
  rfl

theorem withMarks_isMarked (h : Heap) : h.withMarks h.isMarked = h := by
  refine ext_chunks (fun i => ?_) rfl
  rw [getElem?_withMarks]
  cases hc : h.chunks[i]? with
  | none => rfl
  | some c => simp [isMarked, hc]

section Mark

variable {h : Heap} {index : Nat} {c : Chunk}

theorem setMark_eq (hc : h.chunks[index]? = some c) :
    h.setMark index c = h.withMarks fun i => i == index || h.isMarked i := by
  obtain ⟨hi, rfl⟩ := Array.getElem?_eq_some_iff.1 hc
  refine ext_chunks (fun i => ?_) rfl
  rw [getElem?_withMarks, setMark, Array.getElem?_setIfInBounds]
  by_cases e : i = index
  · subst e
    simp [hi]
  · rw [show (i == index) = false by simp [e]]
    simp only [Bool.false_or, ← getElem?_withMarks, withMarks_isMarked, Ne.symm e, if_false]

theorem isMarked_setMark (hc : h.chunks[index]? = some c) (i : Nat) :
    (h.setMark index c).isMarked i = (i == index || h.isMarked i) := by
  rw [setMark_eq hc, isMarked, getElem?_withMarks]
  by_cases e : i = index
  · subst e
    simp [hc]
  · cases hi : h.chunks[i]? with
    | none => simp [e, isMarked, hi]
    | some d => simp

theorem isWhite_iff (hc : h.chunks[index]? = some c) :
    c.isWhite = (h.isUsed index && !h.isMarked index) := by
  simp [Chunk.isWhite, isUsed, isMarked, hc]

theorem deref_of_isWhite (hc : h.chunks[index]? = some c) (hw : c.isWhite) :
    h.deref index = .ok c.data := by
  rw [deref, hc]
  have hu : c.used = true := by simp [Chunk.isWhite] at hw; exact hw.1
  simp [hu]

end Mark

/-- Marking changes marks only. -/
theorem withMarks_mark (h : Heap) (work : List Nat) (marks : Nat → Bool) :
    (h.mark work).withMarks marks = h.withMarks marks := by
  fun_induction mark h work with
  | case1 => rfl
  | case2 _ _ _ _ ih => exact ih
  | case3 h index rest c hc hw ih => rw [ih, setMark_eq hc, withMarks_withMarks]
  | case4 _ _ _ _ _ _ ih => exact ih

theorem mark_eq_withMarks (h : Heap) (work : List Nat) :
    h.mark work = h.withMarks (h.mark work).isMarked := by
  rw [← withMarks_mark, withMarks_isMarked]

@[simp] theorem isUsed_mark (h : Heap) (work : List Nat) (i : Nat) :
    (h.mark work).isUsed i = h.isUsed i := by
  rw [mark_eq_withMarks, isUsed_withMarks]

@[simp] theorem deref_mark (h : Heap) (work : List Nat) (i : Nat) :
    (h.mark work).deref i = h.deref i := by
  rw [mark_eq_withMarks, deref_withMarks]

/-! ## Marking is sound -/

/-- A set of chunks that is closed under references holds every chunk that marking
adds, if it holds the worklist. -/
theorem isMarked_mark_sound {P : Nat → Prop} (h : Heap) (work : List Nat)
    (hclosed : ∀ i data j, P i → h.deref i = .ok data → data.Mentions j → P j)
    (hwork : ∀ j ∈ work, P j) {i : Nat} (hm : (h.mark work).isMarked i) :
    h.isMarked i ∨ h.isUsed i = true ∧ P i := by
  fun_induction mark h work with
  | case1 => exact .inl hm
  | case2 _ _ _ _ ih => exact ih hclosed (fun j hj => hwork j (List.mem_cons_of_mem _ hj)) hm
  | case4 _ _ _ _ _ _ ih => exact ih hclosed (fun j hj => hwork j (List.mem_cons_of_mem _ hj)) hm
  | case3 h index rest c hc hw ih =>
    have hP : P index := hwork index List.mem_cons_self
    have hd : ∀ i, (h.setMark index c).deref i = h.deref i := by
      intro i
      rw [setMark_eq hc, deref_withMarks]
    have hu : (h.setMark index c).isUsed i = h.isUsed i := by rw [setMark_eq hc, isUsed_withMarks]
    rw [isMarked_setMark hc, hu] at ih
    have ih := ih (by simpa only [hd] using hclosed) (fun j hj => ?_) hm
    · rcases ih with ih | ih
      · rw [Bool.or_eq_true, beq_iff_eq] at ih
        rcases ih with rfl | ih
        · rw [isWhite_iff hc, Bool.and_eq_true] at hw
          exact .inr ⟨hw.1, hP⟩
        · exact .inl ih
      · exact .inr ih
    · rcases List.mem_append.1 hj with hj | hj
      · exact hclosed index c.data j hP (deref_of_isWhite hc hw) (Value.mem_refs_iff.1 hj)
      · exact hwork j (List.mem_cons_of_mem _ hj)

/-! ## Marking is complete -/

/-- Every used chunk that a marked chunk mentions is marked or on the worklist. -/
def Closed (h : Heap) (work : List Nat) : Prop :=
  ∀ i data j, h.isMarked i → h.deref i = .ok data → data.Mentions j → h.isUsed j = true →
    h.isMarked j ∨ j ∈ work

/-- A chunk that is marked or not in use may be taken off the worklist. -/
theorem Closed.tail {h : Heap} {index : Nat} {rest : List Nat} (hk : h.Closed (index :: rest))
    (hi : h.isUsed index = true → h.isMarked index) : h.Closed rest := by
  intro i data j hm hd hj hu
  rcases hk i data j hm hd hj hu with hj' | hj'
  · exact .inl hj'
  · rcases List.mem_cons.1 hj' with rfl | hj'
    · exact .inl (hi hu)
    · exact .inr hj'

/-- Marking a chunk puts what it mentions on the worklist. -/
theorem Closed.setMark {h : Heap} {index : Nat} {rest : List Nat} {c : Chunk}
    (hk : h.Closed (index :: rest)) (hc : h.chunks[index]? = some c) (hw : c.isWhite) :
    (h.setMark index c).Closed (c.data.refs ++ rest) := by
  intro i data j hm hd hj hu
  rw [isMarked_setMark hc, Bool.or_eq_true, beq_iff_eq] at hm ⊢
  rw [setMark_eq hc, deref_withMarks] at hd
  rw [setMark_eq hc, isUsed_withMarks] at hu
  rcases hm with rfl | hm
  · rw [deref_of_isWhite hc hw] at hd
    cases hd
    exact .inr (List.mem_append_left _ hj.mem_refs)
  · rcases hk i data j hm hd hj hu with hj' | hj'
    · exact .inl (.inr hj')
    · rcases List.mem_cons.1 hj' with rfl | hj'
      · exact .inl (.inl rfl)
      · exact .inr (List.mem_append_right _ hj')

/-- A chunk without its colour is marked or not in use. -/
theorem isMarked_of_not_isWhite {h : Heap} {index : Nat} {c : Chunk}
    (hc : h.chunks[index]? = some c) (hw : ¬ c.isWhite) (hu : h.isUsed index = true) :
    h.isMarked index := by
  rw [isWhite_iff hc, hu] at hw
  simpa using hw

theorem not_isUsed_of_none {h : Heap} {index : Nat} (hc : h.chunks[index]? = none) :
    h.isUsed index = false := by
  rw [isUsed, hc]

theorem closed_mark (h : Heap) (work : List Nat) (hk : h.Closed work) :
    (h.mark work).Closed [] := by
  fun_induction mark h work with
  | case1 => exact hk
  | case2 h index rest hc ih =>
    exact ih (hk.tail fun hu => by rw [not_isUsed_of_none hc] at hu; cases hu)
  | case3 h index rest c hc hw ih => exact ih (hk.setMark hc hw)
  | case4 h index rest c hc hw ih => exact ih (hk.tail (isMarked_of_not_isWhite hc hw))

/-- Marks stay, and every used chunk of the worklist gets one. -/
theorem isMarked_mark_of_mem (h : Heap) (work : List Nat) {i : Nat}
    (hi : h.isMarked i ∨ i ∈ work ∧ h.isUsed i = true) : (h.mark work).isMarked i := by
  fun_induction mark h work with
  | case1 => simpa using hi
  | case2 h index rest hc ih =>
    rcases hi with hi | ⟨hi, hu⟩
    · exact ih (.inl hi)
    · rcases List.mem_cons.1 hi with rfl | hi
      · rw [not_isUsed_of_none hc] at hu
        cases hu
      · exact ih (.inr ⟨hi, hu⟩)
  | case3 h index rest c hc hw ih =>
    rw [isMarked_setMark hc, setMark_eq hc, isUsed_withMarks, ← setMark_eq hc] at ih
    rcases hi with hi | ⟨hi, hu⟩
    · exact ih (.inl (by simp [hi]))
    · rcases List.mem_cons.1 hi with rfl | hi
      · exact ih (.inl (by simp))
      · exact ih (.inr ⟨List.mem_append_right _ hi, hu⟩)
  | case4 h index rest c hc hw ih =>
    rcases hi with hi | ⟨hi, hu⟩
    · exact ih (.inl hi)
    · rcases List.mem_cons.1 hi with rfl | hi
      · exact ih (.inl (isMarked_of_not_isWhite hc hw hu))
      · exact ih (.inr ⟨hi, hu⟩)

/-- On a heap without marks, the marked chunks are the used ones that can be
reached. -/
theorem isMarked_mark_iff {h : Heap} (hm : ∀ i, h.isMarked i = false) (roots : List Value)
    (i : Nat) :
    (h.mark (Value.refsAll roots)).isMarked i ↔ h.isUsed i = true ∧ h.Reach roots i := by
  constructor
  · intro hi
    have hroots : ∀ j ∈ Value.refsAll roots, h.Reach roots j := by
      intro j hj
      obtain ⟨v, hv, hj⟩ := Value.mem_refsAll.1 hj
      exact .root hv (Value.mem_refs_iff.1 hj)
    rcases isMarked_mark_sound h _ (fun i data j => .step) hroots hi with hi | hi
    · rw [hm i] at hi
      cases hi
    · exact hi
  · rintro ⟨hu, hr⟩
    have hk : h.Closed (Value.refsAll roots) := fun j _ _ hj => by rw [hm j] at hj; cases hj
    induction hr with
    | root hv hj =>
      exact isMarked_mark_of_mem h _ (.inr ⟨Value.mem_refsAll.2 ⟨_, hv, hj.mem_refs⟩, hu⟩)
    | step _ hd hj ih =>
      have hi := ih (isUsed_of_deref hd)
      have hnext := closed_mark h _ hk _ _ _ hi (by rw [deref_mark]; exact hd) hj
        (by rw [isUsed_mark]; exact hu)
      simpa using hnext

end Heap

end HeapScript
