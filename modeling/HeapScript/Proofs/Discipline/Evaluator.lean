import HeapScript.Proofs.Discipline.Basic
import HeapScript.Proofs.Machine.Variables

/-!
# Evaluations keep a discipline

* `Governs` says that a discipline holds of what an evaluator does.
* `Governs.instr` and `Governs.statement` go one level up; `governs_evaluator` is the
  induction on the levels.
-/

namespace HeapScript

/-- What a return statement sees of the frame: whether it is that of a function, and
whether this one returns a reference. Its line does not matter. -/
def Machine.callKind (m : Machine) : Bool × Bool :=
  (m.frames.current.insideFunction, m.frames.current.returnsRef)

theorem Machine.sees_callKind : Machine.Sees Machine.callKind := by
  intro m m' h
  rw [callKind, callKind, h.current]

/-- What a return statement does once it has seen that. -/
def Evaluator.returnsWith (E : Evaluator Expr) (value : Option Expr) (c : Bool × Bool) :
    Exec Flow := do
  if !c.1 then Exec.fail .returnOutsideFunction
  let v ← match value with
    | some e => if e.isEmpty then pure .void else E.hinted c.2 e
    | none => pure .void
  Exec.modify fun m => m.modifyFrame fun f => { f with returnValue := some v }
  return .returnValue

theorem Evaluator.returns_eq (E : Evaluator Expr) (value : Option Expr) :
    E.returns value = Exec.read Machine.callKind >>= E.returnsWith value := rfl

namespace Discipline

variable (D : Discipline)

/-- The discipline holds of every expression, and of every statement that binds only
names that may be bound. -/
structure Governs (E : Evaluator Expr) : Prop where
  stmt {s : Stmt} : (∀ name, s.Declares name → D.Binds name) → D.Holds (E.stmt s)
  expr (e : Expr) : D.Holds (E.expr e)
  confining (s : Stmt) : (E.stmt s).Confining

variable {D} {E : Evaluator Expr} (hE : D.Governs E)

include hE

namespace Governs

/-! ## Calls -/

theorem value (e : Expr) : D.Holds (E.value e) :=
  D.bind (hE.expr e) fun v => question fun _ _ h => h.resolve v

theorem hinted (byRef : Bool) (e : Expr) : D.Holds (E.hinted byRef e) := by
  cases byRef with
  | false => exact hE.value e
  | true => exact D.bind (hE.expr e) fun v => question fun _ _ h => h.stored v

theorem condition (e : Expr) : D.Holds (E.condition e) := by
  refine D.bind (hE.value e) fun v => ?_
  cases v with
  | bool b => exact D.pure b
  | _ => exact fail _

theorem slotValues (use : String → RefUse) (ps : List Param) (args : List Expr) :
    D.Holds (E.slotValues use ps args) := by
  fun_induction Evaluator.slotValues E use ps args with
  | case1 p ps a as ih =>
    refine D.bind (hE.hinted p.isRef a) fun v => ?_
    refine D.bind (question fun _ _ h => h.checkSlot use p v) fun w => ?_
    exact D.bind ih fun ws => D.pure _
  | case2 => exact D.pure []

theorem callNative {m : Machine} {f : Native} (hm : D.Admits m) (hf : f ∈ m.natives)
    (args : List Expr) : D.Holds (E.callNative f args) := by
  refine D.bind (question fun _ _ _ => rfl) fun _ => ?_
  refine D.bind (each (hE.hinted f.takesRefs) args) fun values => ?_
  exact D.native values hm hf

theorem runBody (f : Frame) (body : Stmt) : D.Holds (E.runBody f body) := by
  refine D.bind (D.inFrame f (hE.confining body) fun h => hE.stmt fun name _ => h name) ?_
  rintro ⟨flow, value⟩
  cases flow <;> exact D.pure _

theorem callFunction (f : FunctionValue) (invokedAs : Option String) (args : List Expr) :
    D.Holds (E.callFunction f invokedAs args) := by
  rw [Evaluator.callFunction]
  split
  · exact fail _
  refine read (fun _ _ h => congrArg Config.maxCallDepth h.config) fun m _ => ?_
  refine read (fun _ _ h => h.depth) fun m' _ => ?_
  split
  · exact fail _
  refine D.bind (hE.slotValues _ _ _) fun values => ?_
  -- of the frame of the caller, the new frame keeps the variables only
  let callee (m : Machine) :=
    calleeFrame f invokedAs (f.callName invokedAs) values m.frames.current
  have hcallee : Machine.Sees callee := fun m m' h => by
    show calleeFrame _ _ _ _ _ = _
    rw [h.current]
    rfl
  refine read (g := callee) (k := fun callee => do
    let result ← E.runBody callee f.definition.body
    Exec.check fun m => m.checkReturn f.definition (f.callName invokedAs) result)
    hcallee fun m _ => ?_
  refine D.bind (hE.runBody (callee m) f.definition.body) fun result => ?_
  exact question fun _ _ h => h.checkReturn f.definition _ result

theorem construct (c : ClassDef) (args : List Expr) : D.Holds (E.construct c args) := by
  rw [Evaluator.construct]
  split
  · exact fail _
  exact D.bind (hE.slotValues _ _ _) fun members => D.pure _

theorem fill (template : String) (args : List Expr) : D.Holds (E.fill template args) := by
  refine D.bind (each (fun a => D.bind (hE.value a) fun v => ?_) args) fun shown => ?_
  · exact question (g := fun m => .ok (m.display v)) fun _ _ h => by
      simp only [Machine.display, h.heap]
  · exact D.bind (question fun _ _ _ => rfl) fun text => D.pure _

theorem call (callee : Value) (args : List Expr) : D.Holds (E.call callee args) := by
  refine read (fun _ _ h => h.native? callee) fun m hm => ?_
  cases hf : Evaluator.native? m callee with
  | some f => exact hE.callNative hm (Evaluator.mem_natives_of_native? hf) args
  | none =>
    refine D.bind (question fun _ _ h => h.resolve callee) fun v => ?_
    cases v with
    | function f => exact hE.callFunction f _ args
    | classDef c => exact hE.construct c args
    | str template => exact hE.fill template args
    | _ => exact fail _

/-! ## Expressions -/

theorem instr (i : Instr) (stack : List Value) : D.Holds (E.instr i stack) := by
  cases i with
  | num | str | bool | ident | function => exact D.pure _
  | array elements =>
    refine D.bind (each hE.value elements) fun items => ?_
    exact D.bind (question fun _ _ _ => rfl) fun v => D.pure _
  | binary op =>
    rcases stack with _ | ⟨right, _ | ⟨left, rest⟩⟩
    · exact fail _
    · exact fail _
    · refine D.bind (question fun _ _ h => ?_) fun v => D.pure _
      simp only [h.resolve]
  | unary op =>
    cases stack with
    | nil => exact fail _
    | cons operand rest =>
      refine D.bind (question fun _ _ h => ?_) fun v => D.pure _
      simp only [h.resolve]
  | assign op =>
    rcases stack with _ | ⟨value, _ | ⟨target, rest⟩⟩
    · exact fail _
    · exact fail _
    · cases target with
      | ident name =>
        refine D.check (fun _ _ h => h.resolve value) fun m v _ hv => ?_
        exact D.bind (D.assign op (.inl (Machine.not_isRef_of_resolve hv))) fun w => D.pure _
      | _ => exact fail _
  | member =>
    rcases stack with _ | ⟨member, _ | ⟨object, rest⟩⟩
    · exact fail _
    · exact fail _
    · exact D.bind (question fun _ _ h => h.member object member) fun v => D.pure _
  | call args =>
    cases stack with
    | nil => exact fail _
    | cons callee rest => exact D.bind (hE.call callee _) fun v => D.pure _
  | index idx =>
    cases stack with
    | nil => exact fail _
    | cons target rest =>
      refine D.bind (hE.value idx) fun index => ?_
      exact D.bind (question fun _ _ h => h.element target index) fun v => D.pure _

theorem instrs (is : List Instr) (stack : List Value) : D.Holds (E.instrs is stack) := by
  induction is generalizing stack with
  | nil => exact D.pure stack
  | cons i is ih => exact D.bind (hE.instr i stack) ih

theorem expression (e : Expr) : D.Holds (E.expression e) :=
  D.bind (hE.instrs e.flatten []) fun _ => D.pure _

/-! ## Statements -/

theorem steps (is : List Instr) : D.Holds (E.steps is) := by
  fun_induction Evaluator.steps E is with
  | case1 name r ih => exact D.bind ih fun rest => D.pure _
  | case2 idx r ih => exact D.bind (hE.value idx) fun v => D.bind ih fun rest => D.pure _
  | case3 => exact D.pure []

theorem referredPlace (target : Expr) : D.Holds (E.referredPlace target) := by
  refine D.bind (hE.hinted true target) fun v => ?_
  cases v with
  | ref index => exact D.pure _
  | _ => exact fail _

theorem place (target : Expr) : D.Holds (E.place target) := by
  rw [Evaluator.place.eq_def]
  split
  · split
    · exact D.bind (hE.steps _) fun path => D.pure _
    · exact hE.referredPlace target
  · exact hE.referredPlace target

theorem assignFrom {p : Place} (hp : p.path ≠ []) (op : AssignOp) (e : Expr) :
    D.Holds (E.assignFrom p op e) := by
  have hstore (byRef : Bool) : D.Holds (do
      let value ← E.hinted byRef e
      let _ ← Exec.assign p op value : Exec Unit) :=
    D.bind (hE.hinted byRef e) fun v => D.bind (D.assign op (.inr hp)) fun _ => D.pure ()
  cases op with
  | assign =>
    refine D.bind (question fun _ _ h => ?_) hstore
    rw [h.locate]
  | _ => exact hstore false

theorem declared (flags : DeclFlags) (ty : Ty) (name : String) (init : Option Expr) :
    D.Holds (E.declared flags ty name init) := by
  cases init with
  | some e =>
    refine D.bind (hE.hinted flags.isRef e) fun v => question fun _ _ h => ?_
    simp only [h.expectReference, h.heap]
  | none =>
    rw [Evaluator.declared]
    split
    · exact question fun _ _ h => h.expectReference ty _ _
    · exact D.pure _

theorem declaration {name : String} (hname : D.Binds name) (flags : DeclFlags) (ty : Ty)
    (init : Option Expr) : D.Holds (E.declaration flags ty name init) := by
  refine D.bind (hE.declared flags ty name init) fun v => ?_
  cases flags.isAlloc with
  | true => exact D.allocate ty flags.isConst v hname
  | false => exact D.declare _ hname

theorem returns (value : Option Expr) : D.Holds (E.returns value) := by
  have hpending (v : Value) : D.Holds (do
      Exec.modify fun m => m.modifyFrame fun f => { f with returnValue := some v }
      return Flow.returnValue : Exec Flow) :=
    D.bind (D.pending v) fun _ => D.pure _
  rw [Evaluator.returns_eq]
  refine read Machine.sees_callKind fun m _ => ?_
  rw [Evaluator.returnsWith]
  cases m.callKind.1 with
  | false => exact fail _
  | true =>
    cases value with
    | none => exact hpending .void
    | some e =>
      by_cases he : e.isEmpty = true
      · simp only [he]
        exact hpending .void
      · simp only [he]
        exact D.bind (hE.hinted _ e) hpending

theorem block {body : List Stmt} (hb : ∀ s ∈ body, ∀ name, s.Declares name → D.Binds name) :
    D.Holds (E.block body) := by
  induction body with
  | nil => exact D.pure _
  | cons s r ih =>
    refine D.bind (hE.stmt (hb s List.mem_cons_self)) fun flow => ?_
    cases flow with
    | normal => exact ih fun t ht => hb t (List.mem_cons_of_mem _ ht)
    | _ => exact D.pure _

theorem goesOn (cond : Option Expr) : D.Holds (E.goesOn cond) := by
  cases cond with
  | none => exact D.pure true
  | some c =>
    rw [Evaluator.goesOn]
    split
    · exact D.pure true
    · exact hE.condition c

omit hE in
theorem afterBody {step : Option Stmt} (hs : ∀ s ∈ step, D.Holds (E.stmt s)) (flow : Flow) :
    D.Holds (E.afterBody step flow) := by
  cases flow with
  | breakLoop | returnValue => exact D.pure _
  | normal | continueLoop =>
    cases step with
    | none => exact D.pure none
    | some s => exact D.bind (hs s rfl) fun _ => D.pure none

theorem round {step : Option Stmt} {body : Stmt} (hs : ∀ s ∈ step, D.Holds (E.stmt s))
    (hb : D.Holds (E.stmt body)) (cond : Option Expr) : D.Holds (E.round cond step body) := by
  refine D.bind (hE.goesOn cond) fun goOn => ?_
  cases goOn with
  | false => exact D.pure _
  | true => exact D.bind hb fun flow => afterBody hs flow

/-- The rounds of a loop, by induction on how many it may take. -/
theorem loop {step : Option Stmt} {body : Stmt} (hs : ∀ s ∈ step, D.Holds (E.stmt s))
    (hb : D.Holds (E.stmt body)) (cond : Option Expr) (n : Nat) :
    D.Holds (E.loop cond step body n) := by
  induction n with
  | zero => exact D.exhausted
  | succ n ih =>
    rw [Evaluator.loop_succ]
    refine D.bind (hE.round hs hb cond) fun next => ?_
    cases next with
    | none => exact ih
    | some flow => exact D.pure flow

/-- What a statement does, by its kinds. -/
theorem dispatch {s : Stmt} (hs : ∀ name, s.Declares name → D.Binds name) (n : Nat) :
    D.Holds (E.dispatch n s) := by
  have hpart {t : Stmt} (ht : t ∈ s.parts) : ∀ name, t.Declares name → D.Binds name :=
    fun name h => hs name (.part ht h)
  cases s with
  | expr e line => exact D.bind (hE.value e) fun _ => D.pure _
  | decl flags ty name init line =>
    exact D.bind (hE.declaration (hs name (.decl ..)) flags ty init) fun _ => D.pure _
  | classDef c line => exact D.bind (D.declare _ (hs c.name (.classDef ..))) fun _ => D.pure _
  | ifThen cond thenBranch elseBranch line =>
    refine D.bind (hE.condition cond) fun b => ?_
    cases b with
    | true => exact hE.stmt (hpart (by simp [Stmt.parts]))
    | false =>
      cases elseBranch with
      | some t => exact hE.stmt (hpart (by simp [Stmt.parts]))
      | none => exact D.pure _
  | whileLoop cond body line =>
    exact D.inLoop (hE.loop (fun _ h => by cases h) (hE.stmt (hpart (by simp [Stmt.parts]))) _ n)
  | forLoop init cond step body line =>
    have hloop : D.Holds (Exec.inLoop (E.loop cond step body n)) := by
      refine D.inLoop (hE.loop (fun t ht => hE.stmt (hpart ?_)) (hE.stmt (hpart ?_)) _ n)
      · simp [Stmt.parts, Option.mem_def.1 ht]
      · simp [Stmt.parts]
    cases init with
    | none => exact hloop
    | some t => exact D.bind (hE.stmt (hpart (by simp [Stmt.parts]))) fun _ => hloop
  | block body line => exact hE.block fun t ht => hpart (by simpa [Stmt.parts] using ht)
  | breakLoop line | continueLoop line =>
    refine read (g := fun m => m.frames.current.inLoop) (fun _ _ h => ?_) fun m _ => ?_
    · show Frame.inLoop _ = _
      rw [h.current]
      rfl
    · split
      · exact D.pure _
      · exact fail _
  | returnValue value line => exact hE.returns value
  | setMember target member op value line =>
    refine D.bind (hE.place target) fun p => ?_
    exact D.bind (hE.assignFrom (Place.path_push_ne_nil p _) op value) fun _ => D.pure _
  | setIndex target index op value line =>
    refine D.bind (hE.place target) fun p => D.bind (hE.value index) fun v => ?_
    exact D.bind (hE.assignFrom (Place.path_push_ne_nil p _) op value) fun _ => D.pure _
  | nop line => exact D.pure _

theorem statement {s : Stmt} (hs : ∀ name, s.Declares name → D.Binds name) (n : Nat) :
    D.Holds (E.statement n s) :=
  D.bind (D.line s.line) fun _ => D.located s.line (hE.dispatch hs n)

end Governs

omit hE

/-- Every evaluator is governed by every discipline. -/
theorem governs_evaluator (D : Discipline) : ∀ n, D.Governs (evaluator n)
  | 0 => ⟨fun _ => D.exhausted, fun _ => D.exhausted, fun _ _ _ => confined_of_stmt⟩
  | n + 1 =>
    have ih := governs_evaluator D n
    ⟨fun hs => ih.statement hs n, ih.expression, fun _ _ _ => confined_of_stmt⟩

end Discipline

end HeapScript
