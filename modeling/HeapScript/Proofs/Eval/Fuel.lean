import HeapScript.Eval.Run
import HeapScript.Proofs.Discipline.Basic

/-!
# More levels change no outcome

A run that ends within the levels it is given ends in the same way with more of them.

* `Exec.Approximates`: a computation that ends as another one does, or runs out of steps.
  Sequences, loops and calls of approximations are approximations.
* `Evaluator.Approximates` says the same of evaluators. `Approximates.expression` and
  `Approximates.statement` carry it through the rules of expressions and of statements.
* `evaluator_approximates` ties the levels together, and `runWith_of_le` is what follows
  for programs.
-/

namespace HeapScript

/-! ## Computations -/

/-- Where the first computation does not run out of steps, the second ends as it does. -/
def Exec.Approximates {α : Type} (x y : Exec α) : Prop :=
  ∀ m, x m ≠ .outOfFuel → y m = x m

namespace Exec

variable {α β : Type} {x y : Exec α} {f g : α → Exec β}

theorem approximates_refl (x : Exec α) : x.Approximates x := fun _ _ => rfl

theorem exhausted_approximates (x : Exec α) : exhausted.Approximates x :=
  fun _ h => absurd rfl h

theorem approximates_bind (hx : x.Approximates y) (hf : ∀ a, (f a).Approximates (g a)) :
    (x >>= f).Approximates (y >>= g) := by
  intro m h
  rw [bind_apply] at h ⊢
  rw [bind_apply]
  have hxm : x m ≠ .outOfFuel := by
    intro hout
    rw [hout] at h
    exact h rfl
  rw [hx m hxm]
  cases hr : x m with
  | ok a m₁ =>
    rw [hr] at h
    exact hf a m₁ h
  | error e m₁ => rfl
  | outOfFuel => exact absurd hr hxm

/-- What comes first may be the same on both sides. -/
theorem approximates_bind_right (x : Exec α) (hf : ∀ a, (f a).Approximates (g a)) :
    (x >>= f).Approximates (x >>= g) :=
  approximates_bind (approximates_refl x) hf

/-- What comes after may be the same on both sides. -/
theorem approximates_bind_left (hx : x.Approximates y) (f : α → Exec β) :
    (x >>= f).Approximates (y >>= f) :=
  approximates_bind hx fun a => approximates_refl (f a)

theorem approximates_each (hf : ∀ a, (f a).Approximates (g a)) (as : List α) :
    (each f as).Approximates (each g as) := by
  induction as with
  | nil => exact approximates_refl _
  | cons a as ih =>
    exact approximates_bind (hf a) fun b => approximates_bind_left ih fun bs => pure (b :: bs)

theorem approximates_located (line : Nat) (hx : x.Approximates y) :
    (located line x).Approximates (located line y) := by
  intro m h
  have hxm : x m ≠ .outOfFuel := by
    intro hout
    rw [located, hout] at h
    exact h rfl
  rw [located, located, hx m hxm]

theorem approximates_inLoop (hx : x.Approximates y) : (inLoop x).Approximates (inLoop y) := by
  intro m h
  have hxm : x (m.modifyFrame fun f => { f with loopDepth := f.loopDepth + 1 }) ≠ .outOfFuel := by
    intro hout
    rw [inLoop, hout] at h
    exact h rfl
  rw [inLoop, inLoop, hx _ hxm]

theorem approximates_inFrame (f : Frame) (hx : x.Approximates y) :
    (inFrame f x).Approximates (inFrame f y) := by
  intro m h
  have hxm : x { m with frames := m.frames.push f } ≠ .outOfFuel := by
    intro hout
    rw [inFrame, hout] at h
    exact h rfl
  rw [inFrame, inFrame, hx _ hxm]

end Exec

/-! ## Evaluators -/

/-- The first evaluator approximates the second on every statement and expression. -/
structure Evaluator.Approximates {ε : Type} (E F : Evaluator ε) : Prop where
  stmt (s : Stmt) : (E.stmt s).Approximates (F.stmt s)
  expr (e : ε) : (E.expr e).Approximates (F.expr e)

namespace Evaluator.Approximates

open Exec

variable {ε : Type}

section Calls

variable {E F : Evaluator ε} (h : E.Approximates F)

include h

theorem value (e : ε) : (E.value e).Approximates (F.value e) :=
  approximates_bind_left (h.expr e) _

theorem hinted (byRef : Bool) (e : ε) : (E.hinted byRef e).Approximates (F.hinted byRef e) := by
  cases byRef with
  | false => exact h.value e
  | true => exact approximates_bind_left (h.expr e) _

theorem condition (e : ε) : (E.condition e).Approximates (F.condition e) :=
  approximates_bind_left (h.value e) _

theorem slotValues (use : String → RefUse) (ps : List Param) (as : List ε) :
    (E.slotValues use ps as).Approximates (F.slotValues use ps as) := by
  induction ps generalizing as with
  | nil => exact approximates_refl _
  | cons p ps ih =>
    cases as with
    | nil => exact approximates_refl _
    | cons a as =>
      refine approximates_bind (h.hinted p.isRef a) fun v => ?_
      exact approximates_bind_right _ fun w => approximates_bind_left (ih as) _

theorem callNative (f : Native) (args : List ε) :
    (E.callNative f args).Approximates (F.callNative f args) := by
  refine approximates_bind_right _ fun _ => ?_
  exact approximates_bind_left (approximates_each (h.hinted f.takesRefs) args) _

theorem runBody (frame : Frame) (body : Stmt) :
    (E.runBody frame body).Approximates (F.runBody frame body) :=
  approximates_bind_left (approximates_inFrame frame (h.stmt body)) _

theorem callFunction (f : FunctionValue) (invokedAs : Option String) (args : List ε) :
    (E.callFunction f invokedAs args).Approximates (F.callFunction f invokedAs args) := by
  rw [Evaluator.callFunction, Evaluator.callFunction]
  split
  · exact approximates_refl _
  refine approximates_bind_right _ fun limit => approximates_bind_right _ fun depth => ?_
  split
  · exact approximates_refl _
  refine approximates_bind (h.slotValues _ _ args) fun values => ?_
  refine approximates_bind_right _ fun caller => ?_
  exact approximates_bind_left (h.runBody _ _) _

theorem construct (c : ClassDef) (args : List ε) :
    (E.construct c args).Approximates (F.construct c args) := by
  rw [Evaluator.construct, Evaluator.construct]
  split
  · exact approximates_refl _
  exact approximates_bind_left (h.slotValues _ _ args) _

theorem fill (template : String) (args : List ε) :
    (E.fill template args).Approximates (F.fill template args) := by
  refine approximates_bind_left (approximates_each (fun a => ?_) args) _
  exact approximates_bind_left (h.value a) _

theorem call (callee : Value) (args : List ε) :
    (E.call callee args).Approximates (F.call callee args) := by
  refine approximates_bind_right _ fun native => ?_
  cases native with
  | some f => exact h.callNative f args
  | none =>
    refine approximates_bind_right _ fun data => ?_
    cases data with
    | function f => exact h.callFunction f _ args
    | classDef c => exact h.construct c args
    | str template => exact h.fill template args
    | _ => exact approximates_refl _

end Calls

section Rules

variable {E F : Evaluator Expr} (h : E.Approximates F)

include h

theorem instr (i : Instr) (stack : List Value) :
    (E.instr i stack).Approximates (F.instr i stack) := by
  cases i with
  | array elements =>
    exact approximates_bind_left (approximates_each h.value elements) _
  | call args =>
    cases stack with
    | nil => exact approximates_refl _
    | cons callee rest => exact approximates_bind_left (h.call callee _) _
  | index idx =>
    cases stack with
    | nil => exact approximates_refl _
    | cons target rest => exact approximates_bind_left (h.value idx) _
  | _ => exact approximates_refl _

theorem instrs (code : List Instr) (stack : List Value) :
    (E.instrs code stack).Approximates (F.instrs code stack) := by
  induction code generalizing stack with
  | nil => exact approximates_refl _
  | cons i r ih => exact approximates_bind (h.instr i stack) ih

theorem expression (e : Expr) : (E.expression e).Approximates (F.expression e) :=
  approximates_bind_left (h.instrs e.flatten []) _

theorem steps (code : List Instr) : (E.steps code).Approximates (F.steps code) := by
  rw [Evaluator.steps.eq_def, Evaluator.steps.eq_def F]
  split
  · exact approximates_bind_left (steps _) _
  · exact approximates_bind (h.value _) fun v => approximates_bind_left (steps _) _
  · exact approximates_refl _

theorem referredPlace (target : Expr) :
    (E.referredPlace target).Approximates (F.referredPlace target) :=
  approximates_bind_left (h.hinted true target) _

theorem place (target : Expr) : (E.place target).Approximates (F.place target) := by
  rw [Evaluator.place, Evaluator.place]
  split
  · split
    · exact approximates_bind_left (h.steps _) _
    · exact h.referredPlace target
  · exact h.referredPlace target

theorem assignFrom (p : Place) (op : AssignOp) (e : Expr) :
    (E.assignFrom p op e).Approximates (F.assignFrom p op e) := by
  have hstore (byRef : Bool) := approximates_bind_left (h.hinted byRef e) fun value => do
    let _ ← Exec.assign p op value
  cases op with
  | assign => exact approximates_bind_right _ hstore
  | _ => exact hstore false

theorem declaration (flags : DeclFlags) (ty : Ty) (name : String) (init : Option Expr) :
    (E.declaration flags ty name init).Approximates (F.declaration flags ty name init) := by
  refine approximates_bind_left ?_ _
  cases init with
  | none => exact approximates_refl _
  | some e => exact approximates_bind_left (h.hinted flags.isRef e) _

theorem returns (value : Option Expr) : (E.returns value).Approximates (F.returns value) := by
  refine approximates_bind_right _ fun frame => ?_
  cases frame.insideFunction with
  | false => exact fun _ _ => rfl
  | true =>
    cases value with
    | none => exact approximates_refl _
    | some e =>
      by_cases he : e.isEmpty = true
      · simp only [he]
        exact approximates_refl _
      · simp only [he]
        exact approximates_bind_left (h.hinted frame.returnsRef e) _

theorem block (body : List Stmt) : (E.block body).Approximates (F.block body) := by
  induction body with
  | nil => exact approximates_refl _
  | cons s r ih =>
    refine approximates_bind (h.stmt s) fun flow => ?_
    cases flow with
    | normal => exact ih
    | _ => exact approximates_refl _

theorem goesOn (cond : Option Expr) : (E.goesOn cond).Approximates (F.goesOn cond) := by
  cases cond with
  | none => exact approximates_refl _
  | some c =>
    rw [Evaluator.goesOn, Evaluator.goesOn]
    split
    · exact approximates_refl _
    · exact h.condition c

theorem afterBody (step : Option Stmt) (flow : Flow) :
    (E.afterBody step flow).Approximates (F.afterBody step flow) := by
  cases flow with
  | breakLoop | returnValue => exact approximates_refl _
  | normal | continueLoop =>
    cases step with
    | none => exact approximates_refl _
    | some s => exact approximates_bind_left (h.stmt s) _

theorem round (cond : Option Expr) (step : Option Stmt) (body : Stmt) :
    (E.round cond step body).Approximates (F.round cond step body) := by
  refine approximates_bind (h.goesOn cond) fun goes => ?_
  cases goes with
  | false => exact approximates_refl _
  | true =>
    exact approximates_bind (h.stmt body) (h.afterBody step)

/-- A loop that ends within its rounds ends so with more of them. -/
theorem loop (cond : Option Expr) (step : Option Stmt) (body : Stmt) {n k : Nat} (hnk : n ≤ k) :
    Exec.Approximates (E.loop cond step body n) (F.loop cond step body k) := by
  induction n generalizing k with
  | zero => exact exhausted_approximates _
  | succ n ih =>
    obtain ⟨j, rfl⟩ := Nat.exists_eq_succ_of_ne_zero (Nat.ne_zero_of_lt hnk)
    rw [loop_succ, loop_succ]
    refine approximates_bind (h.round cond step body) fun ended => ?_
    cases ended with
    | none => exact ih (Nat.le_of_succ_le_succ hnk)
    | some flow => exact approximates_refl _

theorem dispatch {n k : Nat} (hnk : n ≤ k) (s : Stmt) :
    (E.dispatch n s).Approximates (F.dispatch k s) := by
  cases s with
  | expr e line => exact approximates_bind_left (h.value e) _
  | decl flags ty name init line =>
    exact approximates_bind_left (h.declaration flags ty name init) _
  | ifThen cond thenBranch elseBranch line =>
    refine approximates_bind (h.condition cond) fun b => ?_
    cases b with
    | true => exact h.stmt thenBranch
    | false =>
      cases elseBranch with
      | none => exact approximates_refl _
      | some s => exact h.stmt s
  | whileLoop cond body line => exact approximates_inLoop (h.loop _ _ _ hnk)
  | forLoop init cond step body line =>
    have hloop := approximates_inLoop (h.loop cond step body hnk)
    cases init with
    | none => exact hloop
    | some s => exact approximates_bind (h.stmt s) fun _ => hloop
  | block body line => exact h.block body
  | returnValue value line => exact h.returns value
  | setMember target member op value line =>
    refine approximates_bind (h.place target) fun p => ?_
    exact approximates_bind_left (h.assignFrom _ op value) _
  | setIndex target idx op value line =>
    refine approximates_bind (h.place target) fun p => approximates_bind (h.value idx) fun i => ?_
    exact approximates_bind_left (h.assignFrom _ op value) _
  | _ => exact approximates_refl _

theorem statement {n k : Nat} (hnk : n ≤ k) (s : Stmt) :
    (E.statement n s).Approximates (F.statement k s) :=
  approximates_bind_right _ fun _ => approximates_located s.line (h.dispatch hnk s)

end Rules

end Evaluator.Approximates

/-! ## Levels -/

theorem evaluator_approximates {n k : Nat} (hnk : n ≤ k) :
    (evaluator n).Approximates (evaluator k) := by
  induction n generalizing k with
  | zero => exact ⟨fun s => Exec.exhausted_approximates _, fun e => Exec.exhausted_approximates _⟩
  | succ n ih =>
    obtain ⟨j, rfl⟩ := Nat.exists_eq_succ_of_ne_zero (Nat.ne_zero_of_lt hnk)
    have hnj := Nat.le_of_succ_le_succ hnk
    exact ⟨fun s => (ih hnj).statement hnj s, fun e => (ih hnj).expression e⟩

/-- The data of an expression that can be evaluated does not depend on the levels that are
left. -/
theorem value_of_le {n k : Nat} (hnk : n ≤ k) {e : Expr} {m m' : Machine} {v : Value}
    (h : (evaluator n).value e m = .ok v m') : (evaluator k).value e m = .ok v m' := by
  rw [← h]
  exact (evaluator_approximates hnk).value e m (by rw [h]; rintro ⟨⟩)

/-- A program that ends within so many levels ends in the same way with more. -/
theorem runWith_of_le {n k : Nat} (hnk : n ≤ k) (m : Machine) (p : Program)
    (h : m.runWith n p ≠ .outOfFuel) : m.runWith k p = m.runWith n p := by
  have hrun : ∀ body, (runStatements n body).Approximates (runStatements k body) := by
    intro body
    induction body with
    | nil => exact Exec.approximates_refl _
    | cons s r ih => exact Exec.approximates_bind ((evaluator_approximates hnk).stmt s) fun _ => ih
  exact hrun p.statements _ h

end HeapScript
