import HeapScript.Native.Memory
import HeapScript.Proofs.Heap.Agree
import HeapScript.Proofs.Machine.Roots

/-!
# Collections are invisible

* `CallStack.Holds`: a value is that of a variable or waits to be returned, in any frame.
  These are the values that a collection starts from (`CallStack.holds_iff`).
* `collection_invisible`: a collection leaves all that a program can observe of them as
  it was.
-/

namespace HeapScript

/-- A variable or the pending return value of some frame is the value. -/
def CallStack.Holds (s : CallStack) (v : Value) : Prop :=
  ∃ f ∈ s.frames, (∃ p ∈ f.vars, p.2.value = v) ∨ f.returnValue = some v

theorem CallStack.holds_iff {s : CallStack} {v : Value} : s.Holds v ↔ v ∈ s.roots := by
  simp only [Holds, mem_roots, Frame.mem_roots]

namespace Native

variable {h h' : Heap} {P : Nat → Prop} {v w : Value}

theorem target_congr (ha : h.AgreeOn h' P) (hv : ∀ i, v.Mentions i → P i) (use : RefUse) :
    target h' use v = target h use v := by
  cases v with
  | ref index => rw [target, target, ha.terminal (hv index (.ref index))]
  | _ => rfl

/-- Whether two references lead to the same chunk depends on what can be reached from
them. -/
theorem same_congr {s s' : CallStack} {world world' : World}
    (ha : world.heap.AgreeOn world'.heap P) (hv : ∀ i, v.Mentions i → P i)
    (hw : ∀ i, w.Mentions i → P i) :
    (same.run s' [v, w] world').1 = (same.run s [v, w] world).1 := by
  have hfirst := target_congr ha hv .comparedFirst
  have hsecond := target_congr ha hw .comparedSecond
  simp only [same, byRef, pure2, List.headD_cons, List.tail_cons, hfirst, hsecond]

end Native

namespace Machine

variable {m : Machine} {v : Value}

theorem agreeOn_collectGarbage (hw : m.heap.WellFormed) :
    m.heap.AgreeOn m.collectGarbage.2.heap (m.heap.Reach m.frames.roots) :=
  Heap.agreeOn_collect hw m.frames.roots

theorem reach_of_holds (hv : m.frames.Holds v) {i : Nat} (hi : v.Mentions i) :
    m.heap.Reach m.frames.roots i :=
  .root (CallStack.holds_iff.1 hv) hi

/-- On a well-formed heap a collection leaves every frame as it is and, for every value
that a frame holds, its text, the data or the error it leads to, and its type; where a
chain of references goes in a circle there is no type before and none after. Two such
values lead to the same chunk afterwards exactly if they did before. -/
theorem collection_invisible (hw : m.heap.WellFormed) :
    m.collectGarbage.2.frames = m.frames ∧
    (∀ v, m.frames.Holds v →
      m.collectGarbage.2.display v = m.display v ∧
      m.collectGarbage.2.deref v = m.deref v ∧
      m.collectGarbage.2.heap.typeOf v = m.heap.typeOf v ∧
      ∀ t, m.collectGarbage.2.heap.HasType v t ↔ m.heap.HasType v t) ∧
    ∀ v w, m.frames.Holds v → m.frames.Holds w →
      (Native.same.run m.collectGarbage.2.frames [v, w] m.collectGarbage.2.toWorld).1 =
        (Native.same.run m.frames [v, w] m.toWorld).1 := by
  have ha := agreeOn_collectGarbage hw
  refine ⟨rfl, fun v hv => ⟨?_, ?_, ?_, fun t => ?_⟩, fun v w hv hw => ?_⟩
  · exact ha.display fun _ => reach_of_holds hv
  · rw [deref, deref, ha.resolve fun _ => reach_of_holds hv]
  · exact ha.typeOf fun _ => reach_of_holds hv
  · exact ha.hasType fun _ => reach_of_holds hv
  · exact Native.same_congr ha (fun _ => reach_of_holds hv) fun _ => reach_of_holds hw

/-- A machine on the heap `Heap.knot`, with a variable that enters the cycle and one that
refers to no chunk. -/
def tangled : Machine where
  heap := Heap.knot
  collector := { threshold := 5, enabled := true }
  frames := { main := { Frame.topLevel with vars := [
    ("a", { ty := .var, value := .ref 0 }), ("b", { ty := .var, value := .ref 9 })] } }
  config := {}
  natives := []

theorem collection_invisible_tangled :
    tangled.heap.WellFormed ∧ tangled.heap.isUsed 2 = true ∧
      tangled.collectGarbage.2.display (.ref 0) = tangled.display (.ref 0) ∧
      tangled.collectGarbage.2.deref (.ref 9) = .error (.heap (.notOnHeap 9)) ∧
      (Native.same.run tangled.collectGarbage.2.frames [.ref 0, .ref 0]
        tangled.collectGarbage.2.toWorld).1 = .ok (.bool true) := by
  have hfirst : tangled.frames.Holds (.ref 0) :=
    ⟨_, tangled.frames.main_mem_frames, .inl ⟨_, List.mem_cons_self, rfl⟩⟩
  have hsecond : tangled.frames.Holds (.ref 9) :=
    ⟨_, tangled.frames.main_mem_frames, .inl ⟨_, List.mem_cons_of_mem _ List.mem_cons_self, rfl⟩⟩
  obtain ⟨-, hkeep, hsame⟩ := collection_invisible (m := tangled) Heap.knot_wellFormed
  exact ⟨Heap.knot_wellFormed, rfl, (hkeep _ hfirst).1, (hkeep _ hsecond).2.1,
    hsame _ _ hfirst hfirst⟩

end Machine

end HeapScript
