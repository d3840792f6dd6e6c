import HeapScript.Machine.Place
import HeapScript.Proofs.Fault.Outcome

/-!
# Changes confined to the innermost frame

What a computation may do to the call stack: change the variables, the line and
the pending return value of the frame it runs in, and nothing else.

* `CallStack.Confined` and `Machine.Confined` say this of two stacks and of two
  machines; both are reflexive and transitive.
* `Confined.pop_eq`: whatever is confined to a frame that was entered is undone by
  leaving it.
* `Confined.of_leave`: a loop level that was entered and left again is confined.
-/

namespace HeapScript

/-- Two frames of the same call, at the same loop depth. -/
structure Frame.SameCall (f g : Frame) : Prop where
  name : g.name = f.name
  insideFunction : g.insideFunction = f.insideFunction
  returnsRef : g.returnsRef = f.returnsRef
  loopDepth : g.loopDepth = f.loopDepth

theorem Frame.SameCall.refl (f : Frame) : f.SameCall f := ⟨rfl, rfl, rfl, rfl⟩

theorem Frame.SameCall.trans {f g k : Frame} (hf : f.SameCall g) (hg : g.SameCall k) :
    f.SameCall k :=
  ⟨hg.name.trans hf.name, hg.insideFunction.trans hf.insideFunction,
    hg.returnsRef.trans hf.returnsRef, hg.loopDepth.trans hf.loopDepth⟩

namespace CallStack

@[simp] theorem modifyCurrent_modifyCurrent (s : CallStack) (f g : Frame → Frame) :
    (s.modifyCurrent f).modifyCurrent g = s.modifyCurrent fun x => g (f x) := by
  rcases s with ⟨main, _ | ⟨f, r⟩⟩ <;> rfl

theorem modifyCurrent_current (s : CallStack) : (s.modifyCurrent fun _ => s.current) = s := by
  rcases s with ⟨main, _ | ⟨f, r⟩⟩ <;> rfl

theorem modifyCurrent_congr {s : CallStack} {f g : Frame → Frame} (h : f s.current = g s.current) :
    s.modifyCurrent f = s.modifyCurrent g := by
  rcases s with ⟨main, _ | ⟨x, r⟩⟩
  · exact congrArg (CallStack.mk · []) h
  · exact congrArg (CallStack.mk main <| · :: r) h

/-- The second stack is the first but for its innermost frame, which is still the
frame of the same call. -/
structure Confined (s t : CallStack) : Prop where
  rest : t = s.modifyCurrent fun _ => t.current
  call : s.current.SameCall t.current

namespace Confined

variable {s t u : CallStack}

theorem refl (s : CallStack) : s.Confined s :=
  ⟨s.modifyCurrent_current.symm, .refl _⟩

theorem trans (hs : s.Confined t) (ht : t.Confined u) : s.Confined u := by
  refine ⟨?_, hs.call.trans ht.call⟩
  have h := ht.rest
  rwa [hs.rest, modifyCurrent_modifyCurrent] at h

/-- A change to the innermost frame that keeps what belongs to its call. -/
theorem modifyCurrent {g : Frame → Frame} (hg : ∀ f : Frame, f.SameCall (g f)) :
    s.Confined (s.modifyCurrent g) := by
  refine ⟨modifyCurrent_congr ?_, ?_⟩ <;> rw [current_modifyCurrent]
  exact hg _

theorem depth_eq (h : s.Confined t) : t.depth = s.depth := by
  rw [h.rest, depth_modifyCurrent]

/-- Every frame but the innermost is the same. -/
theorem tail_frames (h : s.Confined t) : t.frames.tail = s.frames.tail := by
  rw [h.rest]
  rcases s with ⟨main, _ | ⟨f, r⟩⟩ <;> rfl

theorem pop_eq {f : Frame} (h : (s.push f).Confined t) : t.pop = s := by
  rw [h.rest]
  rfl

/-- Entering a loop, staying confined and leaving the loop again is confined. -/
theorem of_leave
    (h : (s.modifyCurrent fun f => { f with loopDepth := f.loopDepth + 1 }).Confined t) :
    s.Confined (t.modifyCurrent fun f => { f with loopDepth := f.loopDepth - 1 }) := by
  have hc := h.call
  rw [current_modifyCurrent] at hc
  refine ⟨?_, ?_⟩
  · rw [current_modifyCurrent]
    conv => lhs; rw [h.rest]
    rw [modifyCurrent_modifyCurrent, modifyCurrent_modifyCurrent]
  · rw [current_modifyCurrent]
    refine ⟨hc.name, hc.insideFunction, hc.returnsRef, ?_⟩
    show t.current.loopDepth - 1 = s.current.loopDepth
    rw [hc.loopDepth]
    rfl

end Confined

end CallStack

/-- The machine that an outcome leaves behind, if the steps did not run out. -/
def Result.machine? {α : Type} : Result α → Option Machine
  | .ok _ m => some m
  | .error _ m => some m
  | .outOfFuel => none

namespace Machine

/-- The machine inside a call. -/
def enter (m : Machine) (f : Frame) : Machine :=
  { m with frames := m.frames.push f }

/-- The machine after leaving its innermost call. -/
def leave (m : Machine) : Machine :=
  { m with frames := m.frames.pop }

end Machine

theorem Machine.current_modifyFrame (m : Machine) (g : Frame → Frame) :
    (m.modifyFrame g).frames.current = g m.frames.current :=
  CallStack.current_modifyCurrent m.frames g

/-! ## Computations in a frame of their own -/

namespace Exec

variable {α : Type} {x : Exec α} {f : Frame} {m m' : Machine}

theorem inFrame_ok {a : α} (h : x (m.enter f) = .ok a m') :
    inFrame f x m = .ok (a, m'.frames.current.returnValue) m'.leave := by
  rw [Machine.enter] at h
  rw [inFrame, h]
  rfl

theorem inFrame_error {e : RuntimeError} (h : x (m.enter f) = .error e m') :
    inFrame f x m = .error e m'.leave := by
  rw [Machine.enter] at h
  rw [inFrame, h]
  rfl

theorem inFrame_outOfFuel (h : x (m.enter f) = .outOfFuel) : inFrame f x m = .outOfFuel := by
  rw [Machine.enter] at h
  rw [inFrame, h]

end Exec

/-! ## Machines -/

namespace Machine

/-- The second machine differs from the first in the innermost frame and in what
lies outside the stack, and was made with the same configuration. -/
structure Confined (m m' : Machine) : Prop where
  frames : m.frames.Confined m'.frames
  config : m'.config = m.config
  natives : m'.natives = m.natives
  sourceName : m'.sourceName = m.sourceName

namespace Confined

variable {m m' m'' : Machine}

theorem refl (m : Machine) : m.Confined m := ⟨.refl _, rfl, rfl, rfl⟩

theorem trans (h : m.Confined m') (h' : m'.Confined m'') : m.Confined m'' :=
  ⟨h.frames.trans h'.frames, h'.config.trans h.config, h'.natives.trans h.natives,
    h'.sourceName.trans h.sourceName⟩

/-- What lies outside the stack may change. -/
theorem ofWorld (m : Machine) (w : World) : m.Confined { m with toWorld := w } :=
  ⟨.refl _, rfl, rfl, rfl⟩

theorem modifyFrame {g : Frame → Frame} (hg : ∀ f : Frame, f.SameCall (g f)) :
    m.Confined (m.modifyFrame g) :=
  ⟨.modifyCurrent hg, rfl, rfl, rfl⟩

theorem declare (m : Machine) (name : String) (v : Variable) : m.Confined (m.declare name v) :=
  modifyFrame fun _ => ⟨rfl, rfl, rfl, rfl⟩

theorem collectGarbage (m : Machine) : m.Confined m.collectGarbage.2 := ofWorld m _

theorem noteAllocation (m : Machine) : m.Confined m.noteAllocation := by
  rw [Machine.noteAllocation]
  have h : m.Confined { m with collector := m.collector.noteAllocation } := ofWorld m _
  split
  · exact h.trans (collectGarbage _)
  · exact h

/-- A write to a place changes a variable of the innermost frame or a chunk. -/
theorem writePlace {p : Place} {v : Value} (h : m.writePlace p v = .ok m') : m.Confined m' := by
  simp only [Machine.writePlace, bind_eq_ok] at h
  obtain ⟨⟨old, ty⟩, -, new, -, h⟩ := h
  rcases p with ⟨name | index, path⟩
  · rw [← pure_eq_ok.1 h]
    exact modifyFrame fun _ => ⟨rfl, rfl, rfl, rfl⟩
  · obtain ⟨heap, -, h⟩ := bind_eq_ok.1 h
    rw [← pure_eq_ok.1 h]
    exact ofWorld m _

end Confined

end Machine

end HeapScript
