import HeapScript.Proofs.Machine.Roots
import HeapScript.Proofs.Machine.Variables
import Mathlib.Data.List.Forall2

/-!
# Variables that hold what they are declared for

* `Ty.Holds`: what a slot of a type may hold: a reference, data that the type accepts,
  or void, if the type has no other default.
* `Frame.Typed`: every variable of a frame does, and no name is bound twice. The
  lemmas go through the changes of a frame and the start of a call.
* `Machine.Typed`: so do the variables of every frame.
-/

namespace HeapScript

/-- A slot of the type may hold the value. -/
def Ty.Holds (t : Ty) (v : Value) : Prop :=
  v.IsRef ∨ t.accepts v.type ∨ v = .void ∧ t.default = .void

theorem Ty.holds_ref (t : Ty) (index : Nat) : t.Holds (.ref index) := .inl ⟨index, rfl⟩

theorem Ty.holds_default (t : Ty) : t.Holds t.default := by
  rw [default.eq_def]
  split
  · exact .inr (.inl (accepts_self _))
  · -- zero is a whole number, which `num` accepts too
    right; left
    rw [Value.type]
    split <;> decide
  · have hzero : Decimal.isWhole 0 = true := by decide +kernel
    exact .inr (.inl (by rw [Value.type, hzero]; exact accepts_self _))
  · exact .inr (.inl (accepts_self _))
  · exact .inr (.inl (accepts_self _))
  · rename_i name h₁ h₂ h₃ h₄
    refine .inr (.inr ⟨rfl, ?_⟩)
    rw [default.eq_def]
    split <;> simp_all

namespace Frame

/-- Every variable holds what it is declared for, and names are bound once. -/
structure Typed (f : Frame) : Prop where
  nodup : (f.vars.map Prod.fst).Nodup
  vars : ∀ p ∈ f.vars, p.2.ty.Holds p.2.value

variable {f : Frame} {name : String} {x y : Variable}

/-- A name that is bound once stands for its one binding. -/
theorem eq_of_mem_of_get? (hf : (f.vars.map Prod.fst).Nodup) (hx : f.get? name = some x)
    (hy : (name, y) ∈ f.vars) : y = x := by
  rw [get?, List.lookup_eq_some_iff] at hx
  obtain ⟨before, after, hvars, hbefore⟩ := hx
  rw [hvars, List.map_append, List.map_cons] at hf
  obtain ⟨-, hafter, -⟩ := List.nodup_append.1 hf
  rw [hvars, List.mem_append, List.mem_cons] at hy
  rcases hy with hy | hy | hy
  · exact absurd (hbefore _ hy) (by simp)
  · cases hy
    rfl
  · have hmem := List.mem_map_of_mem (f := Prod.fst) hy
    exact absurd hmem (List.nodup_cons.1 hafter).1

namespace Typed

theorem congr {g : Frame} (hf : f.Typed) (h : g.vars = f.vars) : g.Typed :=
  ⟨h ▸ hf.nodup, h ▸ hf.vars⟩

theorem declare (hf : f.Typed) (name : String) (hx : x.ty.Holds x.value) :
    (f.declare name x).Typed where
  nodup := by
    show (List.map Prod.fst ((name, x) :: _)).Nodup
    rw [List.map_cons, List.nodup_cons]
    refine ⟨?_, hf.nodup.sublist (List.filter_sublist.map _)⟩
    rw [List.mem_map]
    rintro ⟨p, hp, rfl⟩
    simp at hp
  vars p hp := by
    rcases List.mem_cons.1 hp with rfl | hp
    · exact hx
    · exact hf.vars p (List.mem_filter.1 hp).1

theorem declareAll (hf : f.Typed) {vars : List (String × Variable)}
    (hv : ∀ p ∈ vars, p.2.ty.Holds p.2.value) : (f.declareAll vars).Typed := by
  induction vars generalizing f with
  | nil => exact hf
  | cons p vars ih =>
    refine ih (hf.declare p.1 (hv p List.mem_cons_self)) fun q hq => ?_
    exact hv q (List.mem_cons_of_mem _ hq)

theorem assign {v : Value} (hf : f.Typed) (hx : f.get? name = some x) (hv : x.ty.Holds v) :
    (f.assign name v).Typed where
  nodup := by
    have hkeys : (f.assign name v).vars.map Prod.fst = f.vars.map Prod.fst := by
      rw [Frame.assign, List.map_map]
      refine List.map_congr_left fun p _ => ?_
      simp only [Function.comp_apply]
      split <;> rfl
    rw [hkeys]
    exact hf.nodup
  vars p hp := by
    obtain ⟨q, hq, rfl⟩ := List.mem_map.1 hp
    split
    · rename_i hkey
      have hq : (name, q.2) ∈ f.vars := by rwa [← beq_iff_eq.1 hkey]
      rw [eq_of_mem_of_get? hf.nodup hx hq]
      exact hv
    · exact hf.vars q hq

end Typed

end Frame

/-- A call starts with variables that hold what they are declared for, if its
parameters and the variables of the caller do. -/
theorem Frame.Typed.calleeFrame {caller : Frame} (hc : caller.Typed) (f : FunctionValue)
    (invokedAs : Option String) (name : String) {values : List Value}
    (hv : List.Forall₂ (fun p v => p.ty.Holds v) f.definition.params values) :
    (calleeFrame f invokedAs name values caller).Typed := by
  have hempty : ({ Frame.call name f.definition.returnsRef with line := f.definition.line } :
      Frame).Typed := ⟨List.nodup_nil, by rintro p ⟨⟩⟩
  refine hempty.declareAll fun p hp => ?_
  rw [List.mem_append, List.mem_append] at hp
  rcases hp with (hp | hp) | hp
  · -- a parameter
    obtain ⟨i, hi, rfl⟩ := List.mem_iff_getElem.1 hp
    simp only [boundParams, List.getElem_zipWith]
    exact hv.get _ _
  · -- the function itself or its receiver
    simp only [ownVars, List.mem_append, Option.mem_toList, Option.map_eq_some_iff] at hp
    rcases hp with ⟨invoked, -, rfl⟩ | ⟨index, -, rfl⟩
    · exact .inr (.inl (Ty.accepts_self _))
    · exact Ty.holds_ref _ index
  · -- a variable of the caller
    split at hp
    · exact hc.vars p (List.mem_filter.1 hp).1
    · cases hp

namespace Machine

/-- The variables of every frame hold what they are declared for. -/
def Typed (m : Machine) : Prop :=
  ∀ f ∈ m.frames.frames, f.Typed

variable {m m' : Machine}

theorem frames_noteAllocation (m : Machine) : m.noteAllocation.frames = m.frames := by
  rw [noteAllocation]
  split <;> rfl

namespace Typed

theorem current (hm : m.Typed) : m.frames.current.Typed :=
  hm _ m.frames.current_mem_frames

theorem congr (hm : m.Typed) (h : m'.frames = m.frames) : m'.Typed := by
  rw [Typed, h]
  exact hm

theorem modifyFrame (hm : m.Typed) {g : Frame → Frame} (hg : (g m.frames.current).Typed) :
    (m.modifyFrame g).Typed := by
  intro f hf
  rcases hs : m.frames with ⟨main, _ | ⟨x, r⟩⟩
  · rw [Machine.modifyFrame, hs] at hf
    cases List.mem_singleton.1 hf
    rwa [hs] at hg
  · rw [Machine.modifyFrame, hs] at hf
    rcases List.mem_cons.1 hf with rfl | hf
    · rwa [hs] at hg
    · refine hm f ?_
      rw [hs]
      exact List.mem_cons_of_mem _ hf

theorem declare (hm : m.Typed) (name : String) {x : Variable} (hx : x.ty.Holds x.value) :
    (m.declare name x).Typed :=
  hm.modifyFrame (hm.current.declare name hx)

theorem enter {f : Frame} (hm : m.Typed) (hf : f.Typed) : (m.enter f).Typed := by
  intro g hg
  rcases List.mem_cons.1 hg with rfl | hg
  · exact hf
  · exact hm g hg

/-- What an assignment leaves in the variables is what they are declared for. -/
theorem assign {p : Place} {slot : Slot} {op : AssignOp} {v w : Value} (hm : m.Typed)
    (hl : m.locate p = .ok slot) (hv : ¬v.IsRef ∨ p.path ≠ [])
    (hw : m.assignedValue slot op v = .ok w) (h : m.writePlace slot.place w = .ok m') :
    m'.Typed := by
  rcases assign_cases hl hv hw h with h | ⟨name, x, new, hget, -, hx, -, htype, rfl⟩
  · exact hm.congr h
  · refine hm.modifyFrame (hm.current.assign hget ?_)
    rcases htype with htype | ⟨htype, hvoid⟩
    · exact .inr (.inl htype)
    · rcases hm.current.vars _ (Frame.mem_of_get? hget) with h | h | h
      · exact absurd h hx
      · exact .inr (.inl (by rwa [htype]))
      · exact absurd h.1 hvoid

end Typed

end Machine

end HeapScript
