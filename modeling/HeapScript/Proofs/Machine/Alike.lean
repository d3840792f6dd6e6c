import HeapScript.Eval.Statement

/-!
# Machines that look alike

What an evaluation can learn from a machine: the world, the configuration, the native
functions, the number of active calls, the variables that are visible, and the
innermost frame but for the line it is at. The frames around the innermost one are
seen through the constants of the top level only.

* `Machine.Alike` says that two machines agree on all this.
* `Machine.Sees`: a function of machines that is the same on machines that look
  alike. Each question that the evaluator asks of a machine is one.
* `Alike.assign`: an assignment does the same on machines that look alike.
-/

namespace HeapScript

namespace Machine

/-- An evaluation cannot tell the machines apart. -/
structure Alike (m m' : Machine) : Prop where
  world : m'.toWorld = m.toWorld
  config : m'.config = m.config
  natives : m'.natives = m.natives
  depth : m'.frames.depth = m.frames.depth
  current : m'.frames.current = { m.frames.current with line := m'.frames.current.line }
  lookup (name : String) : m'.frames.lookup name = m.frames.lookup name

/-- The function sees no difference between machines that look alike. -/
def Sees {α : Type} (g : Machine → α) : Prop :=
  ∀ m m' : Machine, m.Alike m' → g m' = g m

namespace Alike

variable {m m' : Machine} (h : m.Alike m')

include h

theorem heap : m'.heap = m.heap := congrArg World.heap h.world

theorem get? (name : String) : m'.frames.current.get? name = m.frames.current.get? name := by
  rw [h.current]
  rfl

theorem stored (v : Value) : m'.stored v = m.stored v := by
  cases v with
  | ident name => rw [Machine.stored, Machine.lookupValue, h.lookup]; rfl
  | _ => rfl

theorem resolve (v : Value) : m'.resolve v = m.resolve v := by
  simp only [Machine.resolve, Machine.deref, h.stored, h.heap]

theorem resolveWithOrigin (v : Value) : m'.resolveWithOrigin v = m.resolveWithOrigin v := by
  simp only [Machine.resolveWithOrigin, h.stored, h.heap]

theorem expectReference (ty : Ty) (use : RefUse) (v : Value) :
    m'.expectReference ty use v = m.expectReference ty use v := by
  simp only [Machine.expectReference.eq_def, h.heap]

theorem checkSlot (use : String → RefUse) (p : Param) (v : Value) :
    m'.checkSlot use p v = m.checkSlot use p v := by
  simp only [Machine.checkSlot, h.expectReference, h.heap]

theorem checkReturn (d : FunctionDef) (name : String) (v : Value) :
    m'.checkReturn d name v = m.checkReturn d name v := by
  simp only [Machine.checkReturn, h.expectReference, h.heap]

theorem member (object member : Value) : m'.member object member = m.member object member := by
  simp only [Machine.member, h.resolveWithOrigin]

theorem element (target index : Value) : m'.element target index = m.element target index := by
  simp only [Machine.element, h.resolve]

theorem native? (callee : Value) :
    Evaluator.native? m' callee = Evaluator.native? m callee := by
  simp only [Evaluator.native?.eq_def, h.lookup, h.natives]

/-! ## Places -/

theorem rootValue (r : Root) : m'.rootValue r = m.rootValue r := by
  cases r with
  | var name => simp only [Machine.rootValue, Machine.writableVariable, h.get?, h.lookup]
  | chunk index => simp only [Machine.rootValue, h.heap]

theorem walk (w : Walk) (path : List Step) : m'.walk w path = m.walk w path := by
  have hcross : ∀ w : Walk, m'.cross w = m.cross w := fun w => by
    simp only [Machine.cross, h.heap]
  induction path generalizing w with
  | nil => rfl
  | cons s r ih => simp only [Machine.walk, hcross, ih]

theorem locate (p : Place) : m'.locate p = m.locate p := by
  simp only [Machine.locate, h.rootValue, h.walk, h.heap]

theorem assignedValue (slot : Slot) (op : AssignOp) (v : Value) :
    m'.assignedValue slot op v = m.assignedValue slot op v := by
  simp only [Machine.assignedValue, Machine.readPlace, h.rootValue, h.resolve, h.expectReference,
    h.heap]

/-- A write to the same place fails with the same fault, or puts the same value into the same
variable or the same chunk. -/
theorem writePlace (p : Place) (v : Value) :
    (∃ f, m.writePlace p v = .error f ∧ m'.writePlace p v = .error f) ∨
    (∃ name new, m.writePlace p v = .ok (m.modifyFrame (·.assign name new)) ∧
      m'.writePlace p v = .ok (m'.modifyFrame (·.assign name new))) ∨
    ∃ heap, m.writePlace p v = .ok { m with heap } ∧ m'.writePlace p v = .ok { m' with heap } := by
  rw [Machine.writePlace, Machine.writePlace, h.rootValue, h.heap]
  cases m.rootValue p.root with
  | error f => exact .inl ⟨f, rfl, rfl⟩
  | ok old =>
    simp only [bind, Except.bind]
    cases old.1.setAt p.path v with
    | error f => exact .inl ⟨f, rfl, rfl⟩
    | ok new =>
      cases p.root with
      | var name => exact .inr (.inl ⟨name, new, rfl, rfl⟩)
      | chunk index =>
        dsimp only
        cases m.heap.write index new with
        | error f => exact .inl ⟨.heap f, rfl, rfl⟩
        | ok heap => exact .inr (.inr ⟨heap, rfl, rfl⟩)

/-- An assignment to the same place fails with the same fault, or stores the same value in the
same variable or the same chunk. -/
theorem assign (p : Place) (op : AssignOp) (v : Value) :
    (∃ f, Exec.assign p op v m = .error { fault := f } m ∧
      Exec.assign p op v m' = .error { fault := f } m') ∨
    (∃ w name new, Exec.assign p op v m = .ok w (m.modifyFrame (·.assign name new)) ∧
      Exec.assign p op v m' = .ok w (m'.modifyFrame (·.assign name new))) ∨
    ∃ w heap, Exec.assign p op v m = .ok w { m with heap } ∧
      Exec.assign p op v m' = .ok w { m' with heap } := by
  rw [Exec.assign, Exec.assign, h.locate]
  simp only [h.assignedValue]
  cases m.locate p with
  | error f => exact .inl ⟨f, rfl, rfl⟩
  | ok slot =>
    simp only [bind, Except.bind]
    cases m.assignedValue slot op v with
    | error f => exact .inl ⟨f, rfl, rfl⟩
    | ok w =>
      dsimp only
      rcases h.writePlace slot.place w with ⟨f, hf, hf'⟩ | ⟨name, new, hm, hm'⟩ | ⟨heap, hm, hm'⟩
      · exact .inl ⟨f, by rw [hf], by rw [hf']⟩
      · exact .inr (.inl ⟨w, name, new, by rw [hm]; rfl, by rw [hm']; rfl⟩)
      · exact .inr (.inr ⟨w, heap, by rw [hm]; rfl, by rw [hm']; rfl⟩)

end Alike

end Machine

end HeapScript
