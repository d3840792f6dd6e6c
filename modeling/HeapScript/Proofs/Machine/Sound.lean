import HeapScript.Proofs.Heap.Collect
import HeapScript.Proofs.Heap.Store
import HeapScript.Proofs.Machine.Roots
import HeapScript.Proofs.Machine.Slot
import HeapScript.Proofs.Native.Builtin
import HeapScript.Proofs.Value.Sound

/-!
# Machines that store sound values

`Machine.Sound` says that the heap is well formed and that what frames and chunks
hold may be stored. The lemmas go through the changes that evaluation makes: new
values in frames and chunks, collections, assignments, native functions, and calls.

* `Sound.writePlace`: an assignment. `locate_holdsRefs` is why it puts no reference
  in the place of an element.
* `Sound.native`: a built-in function, whichever it is.
-/

namespace HeapScript

namespace Machine

/-- What holds of a machine between any two steps. -/
structure Sound (m : Machine) : Prop where
  natives : m.natives = .builtin
  heap : m.heap.WellFormed
  frames : ∀ v ∈ m.frames.roots, v.Kept m.heap.capacity
  chunks : ∀ i v, m.heap.deref i = .ok v → v.Kept m.heap.capacity

namespace Sound

variable {m m' : Machine} {v w : Value}

/-! ## Frames -/

/-- The frames may change, as long as every value they hold may be stored. -/
theorem withFrames (hm : m.Sound) {s : CallStack}
    (hs : ∀ v ∈ s.roots, v ∈ m.frames.roots ∨ v.Kept m.heap.capacity) :
    ({ m with frames := s } : Machine).Sound where
  natives := hm.natives
  heap := hm.heap
  frames v hv := (hs v hv).elim (hm.frames v) id
  chunks := hm.chunks

theorem modifyFrame (hm : m.Sound) {g : Frame → Frame}
    (hg : ∀ v ∈ (g m.frames.current).roots,
      v ∈ m.frames.current.roots ∨ v.Kept m.heap.capacity) : (m.modifyFrame g).Sound := by
  refine hm.withFrames fun v hv => ?_
  rcases CallStack.mem_roots_modifyCurrent hv with hv | hv
  · exact (hg v hv).imp_left CallStack.mem_roots_of_current
  · exact .inl hv

theorem declare (hm : m.Sound) (name : String) {x : Variable}
    (hx : x.value.Kept m.heap.capacity) : (m.declare name x).Sound := by
  refine hm.modifyFrame fun v hv => ?_
  rcases Frame.mem_roots_declare hv with rfl | hv
  · exact .inr hx
  · exact .inl hv

theorem enter (hm : m.Sound) {f : FunctionValue} (invokedAs : Option String) (name : String)
    {values : List Value} (hf : (Value.function f).Kept m.heap.capacity)
    (hv : ∀ v ∈ values, v.Kept m.heap.capacity) :
    (m.enter (calleeFrame f invokedAs name values m.frames.current)).Sound := by
  refine hm.withFrames fun v h => ?_
  rw [CallStack.roots_push, List.mem_append] at h
  rcases h with h | h
  · rcases mem_roots_calleeFrame h with h | rfl | ⟨index, hr, rfl⟩ | h
    · exact .inr (hv v h)
    · exact .inr hf
    · exact .inr (Value.kept_ref (hf.self.1 index hr))
    · exact .inl (CallStack.mem_roots_of_current h)
  · exact .inl h

theorem leave (hm : m.Sound) : m.leave.Sound :=
  hm.withFrames fun _ hv => .inl (CallStack.mem_roots_of_pop hv)

theorem lookup (hm : m.Sound) {name : String} (h : m.lookupValue name = .ok v) :
    v.Kept m.heap.capacity := by
  rw [lookupValue] at h
  split at h
  · rename_i x hx
    cases h
    exact hm.frames _ (CallStack.value_mem_roots_of_lookup hx)
  · cases h

/-! ## The heap -/

/-- The heap may change, as long as it is well formed, does not shrink, and its chunks
hold values that may be stored. -/
theorem withWorld (hm : m.Sound) {world : World} (hw : world.heap.WellFormed)
    (hc : m.heap.capacity ≤ world.heap.capacity)
    (hd : ∀ i v, world.heap.deref i = .ok v →
      m.heap.deref i = .ok v ∨ v.Kept world.heap.capacity) :
    ({ m with toWorld := world } : Machine).Sound where
  natives := hm.natives
  heap := hw
  frames v hv := (hm.frames v hv).mono hc
  chunks i v h := (hd i v h).elim (fun h => (hm.chunks i v h).mono hc) id

/-- What is outside the heap may change. -/
theorem sameHeap (hm : m.Sound) {world : World} (hw : world.heap = m.heap) :
    ({ m with toWorld := world } : Machine).Sound :=
  hm.withWorld (hw ▸ hm.heap) (Nat.le_of_eq (by rw [hw])) fun i v h => .inl (by rwa [hw] at h)

theorem allocate (hm : m.Sound) (hv : v.Kept m.heap.capacity) :
    ({ m with heap := (m.heap.allocate v).2 } : Machine).Sound := by
  have hc := Heap.capacity_le_allocate m.heap v
  refine hm.withWorld (hm.heap.allocate v) hc fun i w h => ?_
  rw [Heap.deref_allocate hm.heap] at h
  split at h
  · cases h
    exact .inr (hv.mono hc)
  · exact .inl h

theorem collectWith (hm : m.Sound) (roots : List Value) :
    ({ m with toWorld := (m.toWorld.collect roots).2 } : Machine).Sound := by
  refine hm.withWorld (hm.heap.collect roots) ?_ fun i v h => .inl (Heap.deref_of_collect hm.heap h)
  exact Nat.le_of_eq (Heap.capacity_collect hm.heap roots).symm

theorem collectGarbage (hm : m.Sound) : m.collectGarbage.2.Sound :=
  hm.collectWith m.frames.roots

theorem noteAllocation (hm : m.Sound) : m.noteAllocation.Sound := by
  rw [Machine.noteAllocation]
  have h : ({ m with collector := m.collector.noteAllocation } : Machine).Sound := hm.sameHeap rfl
  split
  · exact h.collectGarbage
  · exact h

/-- Data is stored somewhere or given, and is no reference. -/
theorem resolve (hm : m.Sound) (hv : v.Kept m.heap.capacity) (h : m.heap.resolve v = .ok w) :
    w.Kept m.heap.capacity ∧ ¬w.IsRef := by
  obtain ⟨rfl | ⟨j, hj⟩, hne⟩ := Heap.resolve_eq_ok h
  · exact ⟨hv, fun ⟨k, hk⟩ => hne k hk⟩
  · exact ⟨hm.chunks j w hj, fun ⟨k, hk⟩ => hne k hk⟩

/-! ## Assignments -/

theorem rootValue {root : Root} {ty : Ty} (hm : m.Sound) (h : m.rootValue root = .ok (v, ty)) :
    v.Kept m.heap.capacity := by
  cases root with
  | var name =>
    obtain ⟨x, hx, h⟩ := bind_eq_ok.1 h
    cases pure_eq_ok.1 h
    rw [writableVariable] at hx
    split at hx
    · rename_i y hy
      split at hx
      · cases hx
      · cases hx
        exact hm.frames _ (CallStack.mem_roots_of_current (Frame.value_mem_roots_of_get? hy))
    · split at hx <;> cases hx
  | chunk index =>
    obtain ⟨x, hx, h⟩ := bind_eq_ok.1 h
    cases pure_eq_ok.1 h
    exact hm.chunks index v (mapError_eq_ok.1 hx)

theorem readPlace {p : Place} (hm : m.Sound) (h : m.readPlace p = .ok v) :
    v.Kept m.heap.capacity := by
  obtain ⟨⟨root, ty⟩, hroot, h⟩ := bind_eq_ok.1 h
  exact Value.Every.getAt (hm.rootValue hroot) h

theorem stored (hv : v.Kept m.heap.capacity) (h : m.stored v = .ok w) : w = v := by
  rw [Machine.stored.eq_def] at h
  split at h
  · exact absurd rfl (hv.ident_ne _)
  · cases h
    rfl

theorem resolveValue (hm : m.Sound) (hv : v.Kept m.heap.capacity) (h : m.resolve v = .ok w) :
    w.Kept m.heap.capacity ∧ ¬w.IsRef := by
  obtain ⟨x, hx, h⟩ := bind_eq_ok.1 h
  rw [stored hv hx] at h
  exact hm.resolve hv (mapError_eq_ok.1 h)

theorem conform {capacity : Nat} {heap : Heap} {ty : Ty} (hv : v.Kept capacity)
    (h : heap.conform ty v = .ok w) : w.Kept capacity ∧ (w.IsRef ↔ v.IsRef) := by
  rw [Heap.conform] at h
  split at h
  · cases h
    exact ⟨hv.retag ty, Value.retag_isRef⟩
  · cases h

/-- What an assignment stores may be stored, and is a reference only if that is what
was assigned. -/
theorem assignedValue {slot : Slot} {op : AssignOp} (hm : m.Sound) (hv : v.Kept m.heap.capacity)
    (h : m.assignedValue slot op v = .ok w) :
    w.Kept m.heap.capacity ∧ (w.IsRef → v.IsRef) := by
  have hstore : ∀ x : Value, x.Kept m.heap.capacity → (x.IsRef → v.IsRef) →
      (if slot.holdsRef then m.expectReference slot.declared .memberSlot x
        else m.heap.conform slot.declared x) = .ok w →
      w.Kept m.heap.capacity ∧ (w.IsRef → v.IsRef) := by
    intro x hx href h
    split at h
    · rw [(expectReference_eq_ok h).1]
      exact ⟨hx, href⟩
    · obtain ⟨hw, hiff⟩ := conform hx h
      exact ⟨hw, fun hr => href (hiff.1 hr)⟩
  rw [Machine.assignedValue] at h
  split at h
  · obtain ⟨old, hold, h⟩ := bind_eq_ok.1 h
    obtain ⟨a, ha, h⟩ := bind_eq_ok.1 h
    obtain ⟨b, hb, h⟩ := bind_eq_ok.1 h
    obtain ⟨x, hx, h⟩ := bind_eq_ok.1 h
    obtain ⟨ha, ha'⟩ := hm.resolveValue (hm.readPlace hold) ha
    obtain ⟨hb, hb'⟩ := hm.resolveValue hv hb
    have hmade := Value.binary_eq_ok hx
    exact hstore x (hmade.kept ha hb ha' hb') (fun hr => absurd hr hmade.not_isRef) h
  · exact hstore v hv id h

theorem writePlace {p : Place} (hm : m.Sound) (hv : v.Kept m.heap.capacity)
    (href : v.IsRef → Value.HoldsRefs p.path) (h : m.writePlace p v = .ok m') :
    m'.Sound ∧ m'.heap.capacity = m.heap.capacity := by
  obtain ⟨⟨old, ty⟩, hold, h⟩ := bind_eq_ok.1 h
  obtain ⟨new, hnew, h⟩ := bind_eq_ok.1 h
  have hkept := Value.Kept.setAt hnew (hm.rootValue hold) hv href
  rcases p with ⟨name | index, path⟩
  · rw [← pure_eq_ok.1 h]
    refine ⟨hm.modifyFrame fun v hv => ?_, rfl⟩
    rcases Frame.mem_roots_assign hv with rfl | hv
    · exact .inr hkept
    · exact .inl hv
  · obtain ⟨heap, hheap, h⟩ := bind_eq_ok.1 h
    rw [mapError_eq_ok] at hheap
    rw [← pure_eq_ok.1 h]
    have hc := Heap.capacity_write hheap
    refine ⟨hm.withWorld (hm.heap.write hheap) (Nat.le_of_eq hc.symm) fun i w h => ?_, hc⟩
    have hd : heap.deref i = .ok w := h
    rw [Heap.deref_write hheap] at hd
    split at hd
    · cases hd
      exact .inr (hkept.mono (Nat.le_of_eq hc.symm))
    · exact .inl hd

/-! ## Native functions -/

/-- A built-in function keeps the machine sound, and its result may be stored. -/
theorem native (hm : m.Sound) {f : Native} (hf : f ∈ m.natives) {args : List Value} {world : World}
    {r : Except Fault Value} (ha : ∀ v ∈ args, v.Kept m.heap.capacity)
    (h : f.run m.frames args m.toWorld = (r, world)) :
    ({ m with toWorld := world } : Machine).Sound ∧ world.heap.capacity = m.heap.capacity ∧
      (∀ v, r = .ok v → v.Kept m.heap.capacity) ∧ Tame r := by
  rw [hm.natives] at hf
  rcases Native.builtin_cases hf with hf | rfl | rfl
  · have hrun := hf _ _ _ _ _ h
    exact ⟨hm.sameHeap hrun.heap, by rw [hrun.heap],
      fun v hv => Value.kept_of_isScalar (hrun.scalar v hv), hrun.tame⟩
  · have hw := Native.bind_world h
    have ht := Native.tame_bindRun m.frames args m.toWorld
    rw [h] at ht
    subst hw
    refine ⟨hm, rfl, ?_, ht⟩
    rintro v rfl
    obtain ⟨g, receiver, hg, ⟨_, _, _, hr⟩, rfl⟩ := Native.bind_eq_ok_function h
    have harg : (args.headD .void).Kept m.heap.capacity := by
      cases args with
      | nil => exact Value.kept_of_isScalar trivial
      | cons a as => exact ha a List.mem_cons_self
    have hkept := (hm.resolve harg hg).1.self
    refine Value.kept_function ?_ hkept.2
    rintro _ ⟨⟩
    exact Heap.lt_capacity_of_isUsed (Heap.isUsed_of_deref hr)
  · obtain ⟨rfl, n, rfl⟩ := Native.collect_run h
    refine ⟨hm.collectWith _, Heap.capacity_collect hm.heap _, ?_, tame_ok _⟩
    rintro _ ⟨⟩
    exact Value.kept_of_isScalar trivial

end Sound

/-! ## Where references may go -/

/-- A slot is reached by the last step of the place, or starts at a chunk. -/
theorem walk_getLast? {m : Machine} {path : List Step} {w w' : Walk}
    (h : m.walk w path = .ok w') (hp : path ≠ []) :
    w'.slot.place.path.getLast? = path.getLast? := by
  induction path generalizing w with
  | nil => exact absurd rfl hp
  | cons s r ih =>
    obtain ⟨x, -, h⟩ := bind_eq_ok.1 h
    obtain ⟨⟨part, ty, holdsRef⟩, -, h⟩ := bind_eq_ok.1 h
    cases r with
    | nil =>
      cases h
      exact List.getLast?_concat
    | cons s' r' =>
      rw [ih h (List.cons_ne_nil _ _), List.getLast?_cons_cons]

/-- Where the place ends in a member, the slot does or is a whole chunk. -/
theorem locate_holdsRefs {m : Machine} {p : Place} {slot : Slot} (h : m.locate p = .ok slot)
    (hp : p.EndsInMember) : Value.HoldsRefs slot.place.path := by
  obtain ⟨name, hp⟩ := hp
  obtain ⟨⟨value, ty⟩, -, h⟩ := bind_eq_ok.1 h
  obtain ⟨w, hw, h⟩ := bind_eq_ok.1 h
  have hne : p.path ≠ [] := by
    intro hnil
    rw [hnil] at hp
    cases hp
  split at h
  · obtain ⟨last, -, h⟩ := bind_eq_ok.1 h
    rw [← pure_eq_ok.1 h]
    exact .inl rfl
  · rw [← pure_eq_ok.1 h]
    exact .inr ⟨name, (walk_getLast? hw hne).trans hp⟩

theorem capacity_noteAllocation {m : Machine} (hm : m.Sound) :
    m.noteAllocation.heap.capacity = m.heap.capacity := by
  rw [Machine.noteAllocation]
  split
  · exact Heap.capacity_collect hm.heap _
  · rfl

end Machine

end HeapScript
