import HeapScript.Eval.Expression
import HeapScript.Proofs.Fault.Outcome

/-!
# Checks never report a missing operand

Only an instruction that finds too few operands on the stack ends with the fault
`missingOperand`. `Tame` says of a check that it does not; the lemmas go through
the checks that instructions and statements make.
-/

namespace HeapScript

variable {ε α β : Type}

/-- The outcome is not a missing operand. -/
def Tame (x : Except Fault α) : Prop :=
  x ≠ .error .missingOperand

@[simp] theorem tame_ok (a : α) : Tame (.ok a) := by simp [Tame]

@[simp] theorem tame_pure (a : α) : Tame (pure a) := tame_ok a

@[simp] theorem tame_error {f : Fault} : Tame (.error f : Except Fault α) ↔ f ≠ .missingOperand := by
  simp [Tame]

theorem tame_bind {x : Except Fault α} {f : α → Except Fault β} (hx : Tame x)
    (hf : ∀ a, Tame (f a)) : Tame (x >>= f) := by
  cases x with
  | ok a => exact hf a
  | error e => exact tame_error.2 (tame_error.1 hx)

theorem tame_map {x : Except Fault α} (f : α → β) (hx : Tame x) : Tame (x.map f) := by
  cases x with
  | ok a => exact tame_ok _
  | error e => exact tame_error.2 (tame_error.1 hx)

@[simp] theorem tame_heap (x : Except HeapError α) : Tame (x.mapError .heap) := by
  cases x <;> simp

theorem Tame.fault_ne {x : Except Fault α} (hx : Tame x) {f : Fault} (h : x = .error f) :
    f ≠ .missingOperand := by
  subst h
  exact tame_error.1 hx

/-! ## Names, references and slots -/

@[simp] theorem tame_lookupValue (m : Machine) (name : String) : Tame (m.lookupValue name) := by
  rw [Machine.lookupValue]
  split <;> simp

@[simp] theorem tame_deref (m : Machine) (v : Value) : Tame (m.deref v) := tame_heap _

@[simp] theorem tame_stored (m : Machine) (v : Value) : Tame (m.stored v) := by
  rw [Machine.stored.eq_def]
  split <;> simp

@[simp] theorem tame_resolve (m : Machine) (v : Value) : Tame (m.resolve v) :=
  tame_bind (tame_stored m v) fun _ => tame_deref m _

@[simp] theorem tame_resolveWithOrigin (m : Machine) (v : Value) :
    Tame (m.resolveWithOrigin v) := by
  refine tame_bind (tame_stored m v) fun w => ?_
  split
  · exact tame_bind (tame_heap _) fun _ => tame_bind (tame_heap _) fun _ => tame_pure _
  · exact tame_pure _

@[simp] theorem tame_expectReference (m : Machine) (ty : Ty) (use : RefUse) (v : Value) :
    Tame (m.expectReference ty use v) := by
  rw [Machine.expectReference.eq_def]
  split
  · split <;> simp
  · simp

@[simp] theorem tame_conform (h : Heap) (ty : Ty) (v : Value) : Tame (h.conform ty v) := by
  rw [Heap.conform]
  split <;> simp

@[simp] theorem tame_checkSlot (m : Machine) (use : String → RefUse) (p : Param) (v : Value) :
    Tame (m.checkSlot use p v) := by
  rw [Machine.checkSlot]
  split <;> simp

@[simp] theorem tame_checkReturn (m : Machine) (d : FunctionDef) (name : String) (v : Value) :
    Tame (m.checkReturn d name v) := by
  rw [Machine.checkReturn]
  split
  · simp
  · split <;> simp

@[simp] theorem tame_checkArity (f : Native) (n : Nat) : Tame (f.checkArity n) := by
  rw [Native.checkArity]
  split <;> simp

/-! ## Operators -/

namespace Value

@[simp] theorem tame_concat (a b : Value) : Tame (concat a b) := by
  rw [concat]
  split <;> simp

@[simp] theorem tame_add (a b : Value) : Tame (add a b) := by
  rw [add.eq_def]
  split <;> first | split <;> simp | simp

@[simp] theorem tame_sub (a b : Value) : Tame (sub a b) := by
  rw [sub.eq_def]
  repeat' split
  all_goals simp

@[simp] theorem tame_arithmetic (op : BinaryOp) (a b : Value) : Tame (arithmetic op a b) := by
  rw [arithmetic.eq_def]
  repeat' split
  all_goals simp

@[simp] theorem tame_equals (op : BinaryOp) (a b : Value) : Tame (equals op a b) := by
  rw [equals.eq_def]
  split <;> simp

@[simp] theorem tame_greater (op : BinaryOp) (a b : Value) : Tame (greater op a b) := by
  rw [greater.eq_def]
  split <;> simp

@[simp] theorem tame_logic (op : BinaryOp) (f : Bool → Bool → Bool) (a b : Value) :
    Tame (logic op f a b) := by
  rw [logic.eq_def]
  split <;> simp

@[simp] theorem tame_bitwise (op : BinaryOp) (a b : Value) : Tame (bitwise op a b) := by
  rw [bitwise]
  repeat' split
  all_goals simp

@[simp] theorem tame_xor (a b : Value) : Tame (xor a b) := by
  rw [xor.eq_def]
  repeat' split
  all_goals simp

@[simp] theorem tame_binary (op : BinaryOp) (a b : Value) : Tame (binary op a b) := by
  have hge : Tame (greaterOrEqual a b) :=
    tame_bind (tame_greater _ a b) fun _ => tame_bind (tame_equals _ a b) fun _ => tame_pure _
  have hle : Tame (lessOrEqual a b) :=
    tame_bind (tame_greater _ b a) fun _ => tame_bind (tame_equals _ a b) fun _ => tame_pure _
  cases op <;> simp only [binary] <;> first | simp | exact tame_map _ (by simp [hge, hle])

@[simp] theorem tame_unary (op : UnaryOp) (v : Value) : Tame (unary op v) := by
  rw [unary.eq_def]
  repeat' split
  all_goals simp

/-! ## Members, elements and places -/

@[simp] theorem tame_checkedIndex (v : Value) (n : Nat) : Tame (checkedIndex v n) := by
  rw [checkedIndex]
  repeat' split
  all_goals simp

@[simp] theorem tame_enter (v : Value) (s : Step) : Tame (v.enter s) := by
  rw [enter.eq_def]
  repeat' split
  all_goals simp_all
  rename_i h
  exact (tame_checkedIndex _ _).fault_ne h

theorem tame_getAt (path : List Step) (v : Value) : Tame (v.getAt path) := by
  induction path generalizing v with
  | nil => simp [getAt]
  | cons s r ih =>
    rw [getAt]
    split
    · rename_i f h
      exact tame_error.2 ((tame_enter v s).fault_ne h)
    · exact ih _

theorem tame_setAt (path : List Step) (v new : Value) : Tame (v.setAt path new) := by
  induction path generalizing v with
  | nil => simp [setAt]
  | cons s r ih =>
    rw [setAt]
    split
    · rename_i f h
      exact tame_error.2 ((tame_enter v s).fault_ne h)
    · exact tame_map _ (ih _)

end Value

@[simp] theorem tame_arrayOf (items : List Value) : Tame (arrayOf items) := by
  rw [arrayOf.eq_def]
  repeat' split
  all_goals simp

namespace Machine

@[simp] theorem tame_member (m : Machine) (object name : Value) : Tame (m.member object name) := by
  rw [member.eq_def]
  split
  · refine tame_bind (tame_resolveWithOrigin m object) fun _ => ?_
    refine tame_bind (Value.tame_enter _ _) fun ⟨value, _, _⟩ => ?_
    cases value <;> exact tame_pure _
  · simp

@[simp] theorem tame_element (m : Machine) (target index : Value) :
    Tame (m.element target index) :=
  tame_bind (tame_resolve m target) fun _ => tame_bind (Value.tame_enter _ _) fun _ => tame_pure _

@[simp] theorem tame_rootValue (m : Machine) (r : Root) : Tame (m.rootValue r) := by
  have hw : ∀ name, Tame (m.writableVariable name) := by
    intro name
    rw [writableVariable]
    repeat' split
    all_goals simp
  cases r with
  | var name => exact tame_bind (hw name) fun _ => tame_pure _
  | chunk index => exact tame_bind (tame_heap _) fun _ => tame_pure _

@[simp] theorem tame_cross (m : Machine) (w : Walk) : Tame (m.cross w) := by
  rw [cross]
  split
  · exact tame_bind (tame_heap _) fun _ => tame_bind (tame_heap _) fun _ => tame_pure _
  · simp

@[simp] theorem tame_walk (m : Machine) (w : Walk) (path : List Step) : Tame (m.walk w path) := by
  induction path generalizing w with
  | nil => simp [walk]
  | cons s r ih =>
    exact tame_bind (tame_cross m w) fun _ => tame_bind (Value.tame_enter _ s) fun _ => ih _

@[simp] theorem tame_locate (m : Machine) (p : Place) : Tame (m.locate p) := by
  refine tame_bind (tame_rootValue m p.root) fun _ => tame_bind (tame_walk m _ _) fun w => ?_
  split
  · exact tame_bind (tame_heap _) fun _ => tame_pure _
  · exact tame_pure _

@[simp] theorem tame_readPlace (m : Machine) (p : Place) : Tame (m.readPlace p) :=
  tame_bind (tame_rootValue m p.root) fun _ => Value.tame_getAt _ _

@[simp] theorem tame_writePlace (m : Machine) (p : Place) (v : Value) : Tame (m.writePlace p v) := by
  refine tame_bind (tame_rootValue m p.root) fun _ => tame_bind (Value.tame_setAt _ _ _) fun _ => ?_
  split
  · exact tame_pure _
  · exact tame_bind (tame_heap _) fun _ => tame_pure _

@[simp] theorem tame_assignedValue (m : Machine) (slot : Slot) (op : AssignOp) (v : Value) :
    Tame (m.assignedValue slot op v) := by
  have hfit : ∀ w, Tame (if slot.holdsRef then m.expectReference slot.declared .memberSlot w
      else m.heap.conform slot.declared w) := by
    intro w
    split <;> simp
  rw [assignedValue]
  split
  · refine tame_bind (tame_readPlace m _) fun _ => tame_bind (tame_resolve m _) fun _ => ?_
    exact tame_bind (tame_resolve m _) fun _ => tame_bind (Value.tame_binary _ _ _) hfit
  · exact hfit v

end Machine

/-! ## Filling placeholders -/

@[simp] theorem tame_interpolate (shown : List String) (template : List Char) :
    Tame (interpolate shown template) := by
  fun_induction interpolate shown template with
  | case1 => simp
  | case2 _ _ _ ih => exact tame_map _ ih
  | case3 _ _ _ _ _ ih => exact tame_map _ ih
  | case4 => simp
  | case5 _ _ _ ih => exact tame_map _ ih

end HeapScript
