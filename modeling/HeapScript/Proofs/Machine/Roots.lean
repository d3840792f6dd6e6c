import HeapScript.Eval.Call
import HeapScript.Proofs.Machine.Confined

/-!
# What the frames hold on to

Where the values of a frame and of a call stack come from after each change:
declaring and assigning variables, entering and leaving calls.

* `Frame.mem_roots` and `CallStack.mem_roots` say what the values are.
* `mem_roots_calleeFrame`: a call starts with its arguments, the function, its
  receiver and, if it captures, variables of the caller.
-/

namespace HeapScript

variable {v : Value} {name : String}

namespace Frame

variable {f : Frame}

theorem mem_roots : v ∈ f.roots ↔ (∃ p ∈ f.vars, p.2.value = v) ∨ f.returnValue = some v := by
  rw [roots, List.mem_append, List.mem_map, Option.mem_toList]

theorem value_mem_roots {p : String × Variable} (hp : p ∈ f.vars) : p.2.value ∈ f.roots :=
  mem_roots.2 (.inl ⟨p, hp, rfl⟩)

theorem value_mem_roots_of_get? {x : Variable} (h : f.get? name = some x) : x.value ∈ f.roots := by
  rw [get?, List.lookup_eq_some_iff] at h
  obtain ⟨before, after, hvars, -⟩ := h
  exact value_mem_roots (p := (name, x)) (by rw [hvars]; simp)

theorem mem_roots_declare {x : Variable} (h : v ∈ (f.declare name x).roots) :
    v = x.value ∨ v ∈ f.roots := by
  rcases mem_roots.1 h with ⟨p, hp, rfl⟩ | h
  · rcases List.mem_cons.1 hp with rfl | hp
    · exact .inl rfl
    · exact .inr (value_mem_roots (List.mem_filter.1 hp).1)
  · exact .inr (mem_roots.2 (.inr h))

theorem mem_roots_assign {w : Value} (h : v ∈ (f.assign name w).roots) : v = w ∨ v ∈ f.roots := by
  rcases mem_roots.1 h with ⟨p, hp, rfl⟩ | h
  · obtain ⟨q, hq, rfl⟩ := List.mem_map.1 hp
    split
    · exact .inl rfl
    · exact .inr (value_mem_roots hq)
  · exact .inr (mem_roots.2 (.inr h))

theorem mem_roots_declareAll {vars : List (String × Variable)}
    (h : v ∈ (f.declareAll vars).roots) : (∃ p ∈ vars, p.2.value = v) ∨ v ∈ f.roots := by
  induction vars generalizing f with
  | nil => exact .inr h
  | cons p vars ih =>
    rcases ih h with ⟨q, hq, hv⟩ | h
    · exact .inl ⟨q, List.mem_cons_of_mem _ hq, hv⟩
    · rcases mem_roots_declare h with rfl | h
      · exact .inl ⟨p, List.mem_cons_self, rfl⟩
      · exact .inr h

theorem mem_roots_returnValue {w : Value}
    (h : v ∈ ({ f with returnValue := some w } : Frame).roots) : v = w ∨ v ∈ f.roots := by
  rcases mem_roots.1 h with h | h
  · exact .inr (mem_roots.2 (.inl h))
  · cases h
    exact .inl rfl

end Frame

/-- What the frame of a call holds when its body starts. -/
theorem mem_roots_calleeFrame {f : FunctionValue} {invokedAs : Option String} {values : List Value}
    {caller : Frame} (h : v ∈ (calleeFrame f invokedAs name values caller).roots) :
    v ∈ values ∨ v = .function f ∨ (∃ index, f.receiver = some index ∧ v = .ref index) ∨
      v ∈ caller.roots := by
  rcases Frame.mem_roots_declareAll h with ⟨p, hp, rfl⟩ | h
  · rw [List.mem_append, List.mem_append] at hp
    rcases hp with (hp | hp) | hp
    · -- a parameter
      obtain ⟨i, hi, rfl⟩ := List.mem_iff_getElem.1 hp
      simp only [boundParams, List.getElem_zipWith]
      exact .inl (List.getElem_mem _)
    · -- the function itself or its receiver
      right
      simp only [ownVars, List.mem_append, Option.mem_toList, Option.map_eq_some_iff] at hp
      rcases hp with ⟨invoked, -, rfl⟩ | ⟨index, hr, rfl⟩
      · exact .inl rfl
      · exact .inr (.inl ⟨index, hr, rfl⟩)
    · -- a variable of the caller
      split at hp
      · exact .inr (.inr (.inr (Frame.value_mem_roots (List.mem_filter.1 hp).1)))
      · cases hp
  · cases h

namespace CallStack

variable {s : CallStack}

theorem mem_roots : v ∈ s.roots ↔ ∃ f ∈ s.frames, v ∈ f.roots := List.mem_flatMap

theorem current_mem_frames (s : CallStack) : s.current ∈ s.frames := by
  rcases s with ⟨main, _ | ⟨f, r⟩⟩
  · exact List.mem_singleton.2 rfl
  · exact List.mem_cons_self

theorem main_mem_frames (s : CallStack) : s.main ∈ s.frames := by
  simp [frames]

theorem mem_roots_of_current (h : v ∈ s.current.roots) : v ∈ s.roots :=
  mem_roots.2 ⟨_, s.current_mem_frames, h⟩

theorem mem_roots_modifyCurrent {g : Frame → Frame} (h : v ∈ (s.modifyCurrent g).roots) :
    v ∈ (g s.current).roots ∨ v ∈ s.roots := by
  obtain ⟨f, hf, hv⟩ := mem_roots.1 h
  rcases s with ⟨main, _ | ⟨x, r⟩⟩
  · cases List.mem_singleton.1 hf
    exact .inl hv
  · rcases List.mem_cons.1 hf with rfl | hf
    · exact .inl hv
    · exact .inr (mem_roots.2 ⟨f, List.mem_cons_of_mem _ hf, hv⟩)

theorem roots_push (s : CallStack) (f : Frame) : (s.push f).roots = f.roots ++ s.roots := rfl

theorem mem_roots_of_pop (h : v ∈ s.pop.roots) : v ∈ s.roots := by
  obtain ⟨f, hf, hv⟩ := mem_roots.1 h
  refine mem_roots.2 ⟨f, ?_, hv⟩
  rw [frames, List.mem_append] at hf ⊢
  exact hf.imp_left List.mem_of_mem_tail

theorem value_mem_roots_of_lookup {x : Variable} (h : s.lookup name = some x) :
    x.value ∈ s.roots := by
  rw [lookup] at h
  split at h
  · rename_i y hy
    cases h
    exact mem_roots_of_current (Frame.value_mem_roots_of_get? hy)
  · obtain ⟨hx, -⟩ := Option.filter_eq_some_iff.1 h
    exact mem_roots.2 ⟨_, s.main_mem_frames, Frame.value_mem_roots_of_get? hx⟩

end CallStack

end HeapScript
