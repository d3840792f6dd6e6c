import HeapScript.Eval.Run
import HeapScript.Proofs.Heap.Collect
import HeapScript.Proofs.Machine.Roots
import HeapScript.Proofs.Machine.Slot
import Mathlib.Data.List.Forall2

/-!
# What a machine holds

An invariant of what is stored says something of the variables of every frame, of the
pending return values, and of the chunks in use. The lemmas here go through the changes
that evaluation makes to a machine and say what has to be known of the new values.

* `Frame.Holding`: the variables and the pending return value of one frame.
* `Machine.Holding`: those of every frame, and the chunks in use.
-/

namespace HeapScript

variable {V : String → Variable → Prop} {P : Value → Prop}

/-- One property holds of the variables of a frame, the other of its pending return
value. -/
structure Frame.Holding (V : String → Variable → Prop) (P : Value → Prop) (f : Frame) : Prop where
  vars : ∀ p ∈ f.vars, V p.1 p.2
  pending : ∀ v, f.returnValue = some v → P v

namespace Frame.Holding

variable {f g : Frame} {name : String} {x : Variable} {v : Value}

theorem congr (hf : f.Holding V P) (hv : g.vars = f.vars) (hr : g.returnValue = f.returnValue) :
    g.Holding V P :=
  ⟨hv ▸ hf.vars, hr ▸ hf.pending⟩

theorem mono {V' : String → Variable → Prop} {P' : Value → Prop} (hf : f.Holding V P)
    (hV : ∀ name x, V name x → V' name x) (hP : ∀ v, P v → P' v) : f.Holding V' P' :=
  ⟨fun p hp => hV _ _ (hf.vars p hp), fun v hv => hP v (hf.pending v hv)⟩

theorem get? (hf : f.Holding V P) (h : f.get? name = some x) : V name x := by
  rw [Frame.get?, List.lookup_eq_some_iff] at h
  obtain ⟨before, after, hvars, -⟩ := h
  exact hf.vars (name, x) (by rw [hvars]; simp)

theorem declare (hf : f.Holding V P) (hx : V name x) : (f.declare name x).Holding V P := by
  refine ⟨fun p hp => ?_, hf.pending⟩
  rcases List.mem_cons.1 hp with rfl | hp
  · exact hx
  · exact hf.vars p (List.mem_filter.1 hp).1

theorem declareAll (hf : f.Holding V P) {vars : List (String × Variable)}
    (hv : ∀ p ∈ vars, V p.1 p.2) : (f.declareAll vars).Holding V P := by
  induction vars generalizing f with
  | nil => exact hf
  | cons p vars ih =>
    exact ih (hf.declare (hv p List.mem_cons_self)) fun q hq => hv q (List.mem_cons_of_mem _ hq)

theorem assign (hf : f.Holding V P) (hx : ∀ x, V name x → V name { x with value := v }) :
    (f.assign name v).Holding V P := by
  refine ⟨fun p hp => ?_, hf.pending⟩
  obtain ⟨q, hq, rfl⟩ := List.mem_map.1 hp
  have hV := hf.vars q hq
  split
  · rename_i hkey
    rw [beq_iff_eq] at hkey
    exact hkey ▸ hx _ (hkey ▸ hV)
  · exact hV

end Frame.Holding

/-- A call starts with its parameters, the function, its receiver and, if it captures,
variables of the caller. -/
theorem Frame.Holding.calleeFrame {caller : Frame} (hc : caller.Holding V P) {f : FunctionValue}
    (invokedAs : Option String) (name : String) {values : List Value}
    (hp : List.Forall₂ (fun p v => V p.name { ty := p.ty, value := v }) f.definition.params values)
    (hf : ∀ invoked, V invoked { ty := .func, value := .function f, isConst := true })
    (hr : ∀ index, f.receiver = some index → V "this" { ty := .obj, value := .ref index }) :
    (calleeFrame f invokedAs name values caller).Holding V P := by
  have hempty : ({ Frame.call name f.definition.returnsRef with line := f.definition.line } :
      Frame).Holding V P := ⟨by rintro p ⟨⟩, by rintro v ⟨⟩⟩
  refine hempty.declareAll fun p hmem => ?_
  rw [List.mem_append, List.mem_append] at hmem
  rcases hmem with (hmem | hmem) | hmem
  · obtain ⟨i, hi, rfl⟩ := List.mem_iff_getElem.1 hmem
    simp only [boundParams, List.getElem_zipWith]
    exact hp.get _ _
  · simp only [ownVars, List.mem_append, Option.mem_toList, Option.map_eq_some_iff] at hmem
    rcases hmem with ⟨invoked, -, rfl⟩ | ⟨index, hindex, rfl⟩
    · exact hf invoked
    · exact hr index hindex
  · split at hmem
    · exact hc.vars p (List.mem_filter.1 hmem).1
    · cases hmem

namespace Machine

/-- One property holds of the variables of every frame, the other of the pending return
values and of what chunks in use hold. -/
structure Holding (V : String → Variable → Prop) (P : Value → Prop) (m : Machine) : Prop where
  frames : ∀ f ∈ m.frames.frames, f.Holding V P
  chunks : ∀ i v, m.heap.deref i = .ok v → P v

namespace Holding

variable {m m' : Machine} {name : String} {x : Variable} {v : Value} {ty : Ty}

theorem mono {V' : String → Variable → Prop} {P' : Value → Prop} (hm : m.Holding V P)
    (hV : ∀ name x, V name x → V' name x) (hP : ∀ v, P v → P' v) : m.Holding V' P' :=
  ⟨fun f hf => (hm.frames f hf).mono hV hP, fun i v h => hP v (hm.chunks i v h)⟩

theorem current (hm : m.Holding V P) : m.frames.current.Holding V P :=
  hm.frames _ m.frames.current_mem_frames

/-! ## Frames -/

theorem modifyFrame (hm : m.Holding V P) {g : Frame → Frame}
    (hg : (g m.frames.current).Holding V P) : (m.modifyFrame g).Holding V P := by
  refine ⟨fun f hf => ?_, hm.chunks⟩
  rcases hs : m.frames with ⟨main, _ | ⟨y, r⟩⟩
  · rw [Machine.modifyFrame, hs] at hf
    cases List.mem_singleton.1 hf
    rwa [hs] at hg
  · rw [Machine.modifyFrame, hs] at hf
    rcases List.mem_cons.1 hf with rfl | hf
    · rwa [hs] at hg
    · refine hm.frames f ?_
      rw [hs]
      exact List.mem_cons_of_mem _ hf

theorem touch (hm : m.Holding V P) {g : Frame → Frame} (hg : ∀ f : Frame,
      (g f).vars = f.vars ∧ (g f).returnValue = f.returnValue ∧ (g f).name = f.name) :
    (m.modifyFrame g).Holding V P :=
  hm.modifyFrame (hm.current.congr (hg _).1 (hg _).2.1)

theorem pending (hm : m.Holding V P) (hv : P v) :
    (m.modifyFrame fun f => { f with returnValue := some v }).Holding V P := by
  refine hm.modifyFrame ⟨hm.current.vars, ?_⟩
  rintro _ ⟨⟩
  exact hv

theorem declare (hm : m.Holding V P) (hx : V name x) : (m.declare name x).Holding V P :=
  hm.modifyFrame (hm.current.declare hx)

theorem enter (hm : m.Holding V P) {f : Frame} (hf : f.Holding V P) :
    (m.enter f).Holding V P := by
  refine ⟨fun g hg => ?_, hm.chunks⟩
  rcases List.mem_cons.1 hg with rfl | hg
  · exact hf
  · exact hm.frames g hg

theorem leave (hm : m.Holding V P) : m.leave.Holding V P := by
  refine ⟨fun f hf => hm.frames f ?_, hm.chunks⟩
  rw [Machine.leave, CallStack.frames, List.mem_append] at hf
  rw [CallStack.frames, List.mem_append]
  exact hf.imp_left List.mem_of_mem_tail

theorem lookup (hm : m.Holding V P) (h : m.frames.lookup name = some x) : V name x := by
  rw [CallStack.lookup] at h
  split at h
  · rename_i y hy
    cases h
    exact hm.current.get? hy
  · obtain ⟨hx, -⟩ := Option.filter_eq_some_iff.1 h
    exact (hm.frames _ m.frames.main_mem_frames).get? hx

theorem lookupValue (hm : m.Holding V P) (hV : ∀ name x, V name x → P x.value)
    (h : m.lookupValue name = .ok v) : P v := by
  rw [Machine.lookupValue] at h
  split at h
  · rename_i x hx
    cases h
    exact hV name x (hm.lookup hx)
  · cases h

theorem bindArguments (hm : m.Holding V P) (args : List String)
    (hx : V "argv" { ty := .array .str, value := .array .str (args.map .str), isConst := true }) :
    (m.bindArguments args).Holding V P := by
  refine ⟨fun f hf => ?_, hm.chunks⟩
  rcases List.mem_append.1 hf with hf | hf
  · exact hm.frames f (List.mem_append_left _ hf)
  · cases List.mem_singleton.1 hf
    exact (hm.frames _ m.frames.main_mem_frames).declare hx

/-! ## The heap -/

/-- What is outside the frames may change, as long as chunks hold what they may. -/
theorem withWorld (hm : m.Holding V P) {world : World}
    (hd : ∀ i v, world.heap.deref i = .ok v → m.heap.deref i = .ok v ∨ P v) :
    ({ m with toWorld := world } : Machine).Holding V P :=
  ⟨hm.frames, fun i v h => (hd i v h).elim (hm.chunks i v) id⟩

theorem sameHeap (hm : m.Holding V P) {world : World} (hw : world.heap = m.heap) :
    ({ m with toWorld := world } : Machine).Holding V P :=
  hm.withWorld fun _ _ h => .inl (hw ▸ h)

theorem allocate (hm : m.Holding V P) (hw : m.heap.WellFormed) (hv : P v) :
    ({ m with heap := (m.heap.allocate v).2 } : Machine).Holding V P := by
  refine hm.withWorld fun i w h => ?_
  rw [Heap.deref_allocate hw] at h
  split at h
  · cases h
    exact .inr hv
  · exact .inl h

theorem collectWith (hm : m.Holding V P) (hw : m.heap.WellFormed) (roots : List Value) :
    ({ m with toWorld := (m.toWorld.collect roots).2 } : Machine).Holding V P :=
  hm.withWorld fun _ _ h => .inl (Heap.deref_of_collect hw h)

theorem noteAllocation (hm : m.Holding V P) (hw : m.heap.WellFormed) :
    m.noteAllocation.Holding V P := by
  rw [Machine.noteAllocation]
  have h : ({ m with collector := m.collector.noteAllocation } : Machine).Holding V P :=
    hm.sameHeap rfl
  split
  · exact h.collectWith hw _
  · exact h

theorem resolve {w : Value} (hm : m.Holding V P) (hv : P v) (h : m.heap.resolve v = .ok w) :
    P w := by
  obtain ⟨rfl | ⟨j, hj⟩, -⟩ := Heap.resolve_eq_ok h
  · exact hv
  · exact hm.chunks j w hj

theorem resolveOperand {w : Value} (hm : m.Holding V P) (hV : ∀ name x, V name x → P x.value)
    (hv : P v) (h : m.resolve v = .ok w) : P w := by
  obtain ⟨x, hx, h⟩ := bind_eq_ok.1 h
  refine hm.resolve (v := x) ?_ (mapError_eq_ok.1 h)
  rw [Machine.stored.eq_def] at hx
  split at hx
  · exact hm.lookupValue hV hx
  · cases hx
    exact hv

/-! ## Places -/

theorem writableVariable (hm : m.Holding V P) (h : m.writableVariable name = .ok x) :
    V name x := by
  rw [Machine.writableVariable] at h
  split at h
  · rename_i y hy
    split at h
    · cases h
    · cases h
      exact hm.current.get? hy
  · split at h <;> cases h

theorem rootValue {root : Root} (hm : m.Holding V P) (hV : ∀ name x, V name x → P x.value)
    (h : m.rootValue root = .ok (v, ty)) : P v := by
  cases root with
  | var name =>
    obtain ⟨x, hx, h⟩ := bind_eq_ok.1 h
    cases pure_eq_ok.1 h
    exact hV name x (hm.writableVariable hx)
  | chunk index =>
    obtain ⟨x, hx, h⟩ := bind_eq_ok.1 h
    cases pure_eq_ok.1 h
    exact hm.chunks index v (mapError_eq_ok.1 hx)

/-- A write to a place keeps what is known of stored values, if the value that comes to
stand in the variable or chunk may be stored there. -/
theorem writePlace {p : Place} {w : Value} (hm : m.Holding V P)
    (hnew : ∀ old new rootTy, m.rootValue p.root = .ok (old, rootTy) →
      old.setAt p.path w = .ok new →
      P new ∧ ∀ name x, p.root = .var name → V name x → V name { x with value := new })
    (h : m.writePlace p w = .ok m') : m'.Holding V P := by
  obtain ⟨old, new, rootTy, hold, hset, h⟩ := writePlace_cases h
  obtain ⟨hP, hvar⟩ := hnew old new rootTy hold hset
  rcases h with ⟨name, hroot, rfl⟩ | ⟨index, heap, -, hwrite, rfl⟩
  · exact hm.modifyFrame (hm.current.assign fun x => hvar name x hroot)
  · refine hm.withWorld fun i v h => ?_
    have hd : heap.deref i = .ok v := h
    rw [Heap.deref_write hwrite] at hd
    split at hd
    · cases hd
      exact .inr hP
    · exact .inl hd

end Holding

end Machine

end HeapScript
