import HeapScript.Proofs.Eval.Isolation
import HeapScript.Proofs.Eval.Reachable
import HeapScript.Proofs.Machine.Outcome

/-!
# Control flow stays in its loop and its call

* `Flow.Allowed` says how a statement may end: with a break or a continue only inside a
  loop, and with a return only inside a function, when a value is pending. A loop ends
  normally or with a return, whatever its body does (`loop_ok`).
* `ends_statement`: one statement ends as allowed if all that is nested in it does. What
  runs before a part of it leaves the loop depth as it is; this much is in every law
  (`Law.Next`), so `isolation` is enough here.
* `flow_contained` is what follows for statements, programs and calls.
-/

namespace HeapScript

/-- The frame is that of a function, and a value waits to be returned. -/
def Machine.Returning (m : Machine) : Prop :=
  m.frames.current.insideFunction = true ∧ ∃ v, m.frames.current.returnValue = some v

/-- How a statement may end on the machine. Whether it may leave a loop or go on to the next
round is up to where it started. -/
def Flow.Allowed (leaves : Prop) (m : Machine) : Flow → Prop
  | .normal => True
  | .breakLoop | .continueLoop => leaves
  | .returnValue => m.Returning

theorem Flow.Allowed.mono {leaves leaves' : Prop} (h : leaves → leaves') {flow : Flow} {m : Machine}
    (hf : flow.Allowed leaves m) : flow.Allowed leaves' m := by
  cases flow with
  | normal | returnValue => exact hf
  | breakLoop | continueLoop => exact h hf

/-- Leaving a loop level takes nothing from a return. -/
theorem Flow.Allowed.modifyFrame {leaves : Prop} {flow : Flow} {m : Machine} {g : Frame → Frame}
    (hg : ∀ f : Frame, (g f).insideFunction = f.insideFunction ∧ (g f).returnValue = f.returnValue)
    (hf : flow.Allowed leaves m) : flow.Allowed leaves (m.modifyFrame g) := by
  cases flow with
  | normal | breakLoop | continueLoop => exact hf
  | returnValue =>
    obtain ⟨hinside, v, hv⟩ := hf
    rw [Flow.Allowed, Machine.Returning, Machine.current_modifyFrame, (hg _).1, (hg _).2]
    exact ⟨hinside, v, hv⟩

namespace Exec

variable {α β : Type} {x : Exec α} {f : α → Exec β} {m m' : Machine}

/-- If the computation succeeds, it ends as a loop does: normally or with a return. -/
def EndsLoop (x : Exec Flow) : Prop :=
  ∀ m flow m', x m = .ok flow m' → flow.Allowed False m'

/-- If the computation succeeds, it ends as a statement may that starts where it did. -/
def Ends (x : Exec Flow) : Prop :=
  ∀ m flow m', x m = .ok flow m' → flow.Allowed (0 < m.frames.current.loopDepth) m'

theorem EndsLoop.ends {x : Exec Flow} (hx : x.EndsLoop) : x.Ends :=
  fun m flow m' h => (hx m flow m' h).mono False.elim

theorem endsLoop_normal : (pure .normal : Exec Flow).EndsLoop := by
  intro m flow m' h
  obtain ⟨rfl, -⟩ := pure_ok_iff.1 h
  trivial

theorem endsLoop_bind {f : α → Exec Flow} (hf : ∀ a, (f a).EndsLoop) : (x >>= f).EndsLoop := by
  intro m flow m' h
  obtain ⟨a, m₁, -, h⟩ := bind_ok_iff.1 h
  exact hf a m₁ flow m' h

/-- What comes first may change variables of the frame, but not how many loops run in it. -/
theorem ends_bind {f : α → Exec Flow} (hx : ∀ m a m', x m = .ok a m' → m.Confined m')
    (hf : ∀ a, (f a).Ends) : (x >>= f).Ends := by
  intro m flow m' h
  obtain ⟨a, m₁, hm₁, h⟩ := bind_ok_iff.1 h
  have hdepth := (hx m a m₁ hm₁).frames.call.loopDepth
  rw [← hdepth]
  exact hf a m₁ flow m' h

end Exec

/-! ## Statements -/

namespace Evaluator

open Exec

variable {E : Evaluator Expr}

/-- What a loop ends with after a round: a return of the body goes on, a break ends here. -/
theorem afterBody_ok {step : Option Stmt} {flow flow' : Flow} {m m' : Machine}
    (h : E.afterBody step flow m = .ok (some flow') m') :
    flow' = .normal ∨ flow' = .returnValue ∧ flow = .returnValue ∧ m' = m := by
  cases flow with
  | breakLoop =>
    obtain ⟨h, -⟩ := pure_ok_iff.1 h
    cases h
    exact .inl rfl
  | returnValue =>
    obtain ⟨h, rfl⟩ := pure_ok_iff.1 h
    cases h
    exact .inr ⟨rfl, rfl, rfl⟩
  | normal | continueLoop =>
    -- another round follows
    cases step with
    | none => cases h
    | some t =>
      obtain ⟨-, m₁, -, h⟩ := bind_ok_iff.1 h
      cases h

theorem round_ok {cond : Option Expr} {step : Option Stmt} {body : Stmt} {flow : Flow}
    {m m' : Machine} (h : E.round cond step body m = .ok (some flow) m') :
    flow = .normal ∨ flow = .returnValue ∧ ∃ m₁, E.stmt body m₁ = .ok .returnValue m' := by
  obtain ⟨goesOn, m₁, -, h⟩ := bind_ok_iff.1 h
  cases goesOn with
  | false =>
    obtain ⟨h, -⟩ := pure_ok_iff.1 h
    cases h
    exact .inl rfl
  | true =>
    obtain ⟨flow', m₂, hbody, h⟩ := bind_ok_iff.1 h
    refine (afterBody_ok h).imp_right ?_
    rintro ⟨rfl, rfl, rfl⟩
    exact ⟨rfl, m₁, hbody⟩

/-- A loop ends normally, or with a return that ends its body. By induction on how many rounds
it may take. -/
theorem loop_ok {cond : Option Expr} {step : Option Stmt} {body : Stmt} {n : Nat} {flow : Flow}
    {m m' : Machine} (h : E.loop cond step body n m = .ok flow m') :
    flow = .normal ∨ flow = .returnValue ∧ ∃ m₁, E.stmt body m₁ = .ok .returnValue m' := by
  induction n generalizing m with
  | zero => cases h
  | succ n ih =>
    rw [Evaluator.loop] at h
    split at h
    · exact ih h
    · rename_i flow' m₁ hr
      cases h
      exact round_ok hr
    · cases h
    · cases h

/-- A break or a continue of the body ends in its loop. -/
theorem endsLoop_loop (hE : ∀ s, (E.stmt s).Ends) (cond : Option Expr) (step : Option Stmt)
    (body : Stmt) (n : Nat) : Exec.EndsLoop (E.loop cond step body n) := by
  intro m flow m' h
  rcases loop_ok h with rfl | ⟨rfl, m₁, hbody⟩
  · trivial
  · exact hE body m₁ .returnValue m' hbody

theorem endsLoop_inLoop {x : Exec Flow} (hx : x.EndsLoop) : (Exec.inLoop x).EndsLoop := by
  intro m flow m' h
  obtain ⟨m₁, m₂, hr, rfl⟩ := inLoop_ok h
  exact (hx m₁ flow m₂ hr).modifyFrame fun _ => ⟨rfl, rfl⟩

/-- A return that succeeds is one of a function, and its value is pending then. -/
theorem returns_ok {value : Option Expr} {m m' : Machine} {flow : Flow}
    (h : E.returns value m = .ok flow m') :
    flow = .returnValue ∧ m.frames.current.insideFunction = true ∧ ∃ v m₁,
      (m₁ = m ∨ ∃ e, E.hinted m.frames.current.returnsRef e m = .ok v m₁) ∧
      m' = m₁.modifyFrame fun f => { f with returnValue := some v } := by
  have hpending (v : Value) (m₁ : Machine) (h : (do
      Exec.modify fun m => m.modifyFrame fun f => { f with returnValue := some v }
      return Flow.returnValue : Exec Flow) m₁ = .ok flow m') :
      flow = .returnValue ∧ m' = m₁.modifyFrame fun f => { f with returnValue := some v } := by
    cases h
    exact ⟨rfl, rfl⟩
  obtain ⟨frame, m₁, hframe, h⟩ := bind_ok_iff.1 h
  cases hframe
  by_cases hinside : m.frames.current.insideFunction = true
  · simp only [hinside] at h
    cases value with
    | none =>
      obtain ⟨hflow, hm⟩ := hpending .void m h
      exact ⟨hflow, hinside, .void, m, .inl rfl, hm⟩
    | some e =>
      by_cases he : e.isEmpty = true
      · simp only [he] at h
        obtain ⟨hflow, hm⟩ := hpending .void m h
        exact ⟨hflow, hinside, .void, m, .inl rfl, hm⟩
      · simp only [he] at h
        obtain ⟨v, m₁, hv, h⟩ := bind_ok_iff.1 h
        obtain ⟨hflow, hm⟩ := hpending v m₁ h
        exact ⟨hflow, hinside, v, m₁, .inr ⟨e, hv⟩, hm⟩
  · simp only [hinside] at h
    cases h

section Level

variable (hL : isolation.Respects E)

include hL

/-- A return leaves its value in the frame of a function. -/
theorem endsLoop_returns (value : Option Expr) : (E.returns value).EndsLoop := by
  intro m flow m' h
  obtain ⟨rfl, hinside, v, m₁, hm₁, rfl⟩ := returns_ok h
  have hconfined : m.Confined m₁ := by
    rcases hm₁ with rfl | ⟨e, hv⟩
    · exact .refl _
    · have hafter := hL.hinted (m := m) m.frames.current.returnsRef e.within_true trivial
      exact (hafter.next (by rw [hv]; rfl)).confined
  rw [Flow.Allowed, Machine.Returning, Machine.current_modifyFrame]
  exact ⟨hconfined.frames.call.insideFunction.trans hinside, v, rfl⟩

variable (hE : ∀ s, (E.stmt s).Ends)

include hE

/-- A block ends as its last statement that runs does, which starts in as many loops. -/
theorem ends_block (body : List Stmt) : (E.block body).Ends := by
  induction body with
  | nil => exact endsLoop_normal.ends
  | cons s r ih =>
    intro m flow m' h
    obtain ⟨flow', m₁, hs, h⟩ := bind_ok_iff.1 h
    have hnext := ((hL.stmt (m := m) s.every_true trivial).next (by rw [hs]; rfl)).confined
    have hfirst := hE s m flow' m₁ hs
    cases flow' with
    | normal =>
      rw [← hnext.frames.call.loopDepth]
      exact ih m₁ flow m' h
    | breakLoop | continueLoop | returnValue =>
      obtain ⟨rfl, rfl⟩ := pure_ok_iff.1 h
      exact hfirst

/-- A statement ends as allowed if the statements in it do. -/
theorem ends_dispatch (n : Nat) (s : Stmt) : (E.dispatch n s).Ends := by
  cases s with
  | expr _ _ | decl _ _ _ _ _ | classDef _ _ =>
    exact (endsLoop_bind fun _ => endsLoop_normal).ends
  | nop _ => exact endsLoop_normal.ends
  | setMember _ _ _ _ _ =>
    exact (endsLoop_bind fun _ => endsLoop_bind fun _ => endsLoop_normal).ends
  | setIndex _ _ _ _ _ =>
    exact (endsLoop_bind fun _ => endsLoop_bind fun _ => endsLoop_bind fun _ =>
      endsLoop_normal).ends
  | ifThen cond thenBranch elseBranch line =>
    refine ends_bind (fun m b m' h => ?_) fun b => ?_
    · have hafter := hL.condition (m := m) cond.within_true trivial
      exact (hafter.next (by rw [h]; rfl)).confined
    · cases b with
      | true => exact hE thenBranch
      | false =>
        cases elseBranch with
        | some t => exact hE t
        | none => exact endsLoop_normal.ends
  | whileLoop cond body line => exact (endsLoop_inLoop (endsLoop_loop hE _ _ _ n)).ends
  | forLoop init cond step body line =>
    have hloop := endsLoop_inLoop (endsLoop_loop hE cond step body n)
    cases init with
    | none => exact hloop.ends
    | some t => exact (endsLoop_bind fun _ => hloop).ends
  | block body line => exact ends_block hL hE body
  | breakLoop line | continueLoop line =>
    intro m flow m' h
    obtain ⟨b, m₁, hb, h⟩ := bind_ok_iff.1 h
    cases hb
    split at h
    · rename_i hin
      obtain ⟨rfl, -⟩ := pure_ok_iff.1 h
      exact (of_decide_eq_true hin : 0 < m.frames.current.loopDepth)
    · cases h
  | returnValue value line => exact (endsLoop_returns hL value).ends

theorem ends_statement (n : Nat) (s : Stmt) : (E.statement n s).Ends := by
  intro m flow m' h
  obtain ⟨⟨⟩, m₁, hline, h⟩ := bind_ok_iff.1 h
  cases hline
  have hdepth : (m.modifyFrame fun f => { f with line := s.line }).frames.current.loopDepth =
      m.frames.current.loopDepth := by rw [Machine.current_modifyFrame]
  rw [Exec.located] at h
  split at h
  · split at h <;> cases h
  · rw [← hdepth]
    exact ends_dispatch hL hE n s _ flow m' h

end Level

end Evaluator

theorem ends_evaluator (n : Nat) (s : Stmt) : ((evaluator n).stmt s).Ends := by
  induction n generalizing s with
  | zero =>
    intro m flow m' h
    cases h
  | succ n ih => exact Evaluator.ends_statement (Law.respects_evaluator isolation n) ih n s

theorem flow_of_stmt {n : Nat} {s : Stmt} {m m' : Machine} {flow : Flow}
    (h : (evaluator n).stmt s m = .ok flow m') :
    (flow = .breakLoop ∨ flow = .continueLoop → 0 < m.frames.current.loopDepth) ∧
      (flow = .returnValue → m.frames.current.insideFunction = true ∧
        ∃ v, m'.frames.current.returnValue = some v) := by
  have hflow := ends_evaluator n s m flow m' h
  have hcall := (confined_of_stmt (by rw [h]; rfl)).frames.call
  refine ⟨?_, ?_⟩
  · rintro (rfl | rfl) <;> exact hflow
  · rintro rfl
    exact ⟨hcall.insideFunction ▸ hflow.1, hflow.2⟩

/-- Where no loop runs in the frame, a statement ends normally or with a return. -/
theorem flow_outside_loops {n : Nat} {s : Stmt} {m m' : Machine} {flow : Flow}
    (h : (evaluator n).stmt s m = .ok flow m') (hm : m.frames.current.loopDepth = 0) :
    flow = .normal ∨ flow = .returnValue ∧ m.frames.current.insideFunction = true ∧
      ∃ v, m'.frames.current.returnValue = some v := by
  obtain ⟨hloop, hreturn⟩ := flow_of_stmt h
  rw [hm] at hloop
  cases flow with
  | normal => exact .inl rfl
  | breakLoop => exact absurd (hloop (.inl rfl)) (Nat.lt_irrefl 0)
  | continueLoop => exact absurd (hloop (.inr rfl)) (Nat.lt_irrefl 0)
  | returnValue => exact .inr ⟨rfl, hreturn rfl⟩

/-! ## Programs and calls -/

theorem confined_of_runStatements {fuel : Nat} {body : List Stmt} {m m' : Machine}
    (h : (runStatements fuel body m).machine? = some m') : m.Confined m' := by
  have hafter := Law.after_runStatements (L := isolation) fuel
    (fun s _ => s.every_true : ∀ s ∈ body, _) (m := m) trivial
  exact (hafter.next h).confined

namespace Machine

variable {m m' : Machine}

/-- No call is active, and no loop runs at the top level, which is no function. -/
structure AtTop (m : Machine) : Prop where
  calls : m.frames.calls = []
  loopDepth : m.frames.main.loopDepth = 0
  insideFunction : m.frames.main.insideFunction = false

theorem AtTop.current (h : m.AtTop) : m.frames.current = m.frames.main := by
  rw [CallStack.current, h.calls]

theorem AtTop.confined (h : m.AtTop) (hc : m.Confined m') : m'.AtTop := by
  have hcalls : m'.frames.calls = [] := by
    rw [← List.length_eq_zero_iff]
    exact hc.frames.depth_eq.trans (List.length_eq_zero_iff.2 h.calls)
  have hcurrent : m'.frames.current = m'.frames.main := by rw [CallStack.current, hcalls]
  have hcall := hc.frames.call
  rw [h.current, hcurrent] at hcall
  exact ⟨hcalls, hcall.loopDepth.trans h.loopDepth, hcall.insideFunction.trans h.insideFunction⟩

/-- Where no loop and no function runs there is nothing to leave. -/
theorem AtTop.flow_eq_normal (hm : m.AtTop) {n : Nat} {s : Stmt} {flow : Flow}
    (h : (evaluator n).stmt s m = .ok flow m') : flow = .normal := by
  have hdepth : m.frames.current.loopDepth = 0 := by rw [hm.current, hm.loopDepth]
  rcases flow_outside_loops h hdepth with hnormal | ⟨-, hinside, -⟩
  · exact hnormal
  · rw [hm.current, hm.insideFunction] at hinside
    cases hinside

theorem Reachable.atTop (h : m.Reachable) : m.AtTop := by
  induction h with
  | create config console files => exact ⟨rfl, rfl, rfl⟩
  | @run m m' fuel name tokens p _ _ hrun ih =>
    have hm : ({ m with sourceName := p.sourceName } : Machine).AtTop :=
      ⟨ih.calls, ih.loopDepth, ih.insideFunction⟩
    exact hm.confined (confined_of_runStatements hrun)
  | bindArguments args _ ih => exact ⟨ih.calls, ih.loopDepth, ih.insideFunction⟩
  | collectGarbage _ ih => exact ⟨ih.calls, ih.loopDepth, ih.insideFunction⟩

end Machine

@[simp] theorem Frame.loopDepth_declareAll (f : Frame) (vars : List (String × Variable)) :
    (f.declareAll vars).loopDepth = f.loopDepth := by
  induction vars generalizing f with
  | nil => rfl
  | cons p vars ih => exact ih (f.declare p.1 p.2)

theorem loopDepth_calleeFrame (f : FunctionValue) (invokedAs : Option String) (name : String)
    (values : List Value) (caller : Frame) :
    (calleeFrame f invokedAs name values caller).loopDepth = 0 := by
  rw [calleeFrame, Frame.loopDepth_declareAll]
  rfl

/-- Outside loops the statements that leave or continue one fail. -/
theorem fails_outside_loops {m : Machine} (hm : m.frames.current.loopDepth = 0) (n line : Nat) :
    (∃ e m', (evaluator (n + 1)).stmt (.breakLoop line) m = .error e m' ∧
      e.fault = .breakOutsideLoop ∧ m.Confined m') ∧
    ∃ e m', (evaluator (n + 1)).stmt (.continueLoop line) m = .error e m' ∧
      e.fault = .continueOutsideLoop ∧ m.Confined m' := by
  let m' := m.modifyFrame fun f => { f with line }
  let site : Site := ⟨m'.sourceName, line, m'.frames.trace⟩
  have hin : m'.frames.current.inLoop = false := by
    rw [Machine.current_modifyFrame, Frame.inLoop, hm]
    rfl
  have hconfined : m.Confined m' := .modifyFrame fun _ => ⟨rfl, rfl, rfl, rfl⟩
  refine ⟨⟨⟨.breakOutsideLoop, some site⟩, m', ?_, rfl, hconfined⟩,
    ⟨⟨.continueOutsideLoop, some site⟩, m', ?_, rfl, hconfined⟩⟩
  all_goals
    simp only [evaluator, Evaluator.statement, Evaluator.dispatch, Exec.bind_apply, Exec.modify,
      Exec.located, Exec.read, Stmt.line]
    simp only [show (m.modifyFrame fun f => { f with line }) = m' from rfl, hin]
    rfl

/-- A statement ends with a break or a continue only where a loop runs in its own frame,
and with a return only in the frame of a function, which then holds the value. So a
statement of a program that succeeds ends normally, since a program runs where no loop and
no function does; and the body of a function ends normally or with a return, also when a
loop runs in the frame of its caller. A break or a continue outside the loops of the
function fails there, and the frames of the callers are as they were. -/
theorem flow_contained :
    (∀ n s (m : Machine) flow m', (evaluator n).stmt s m = .ok flow m' →
      (flow = .breakLoop ∨ flow = .continueLoop → 0 < m.frames.current.loopDepth) ∧
      (flow = .returnValue → m.frames.current.insideFunction = true ∧
        ∃ v, m'.frames.current.returnValue = some v)) ∧
    (∀ m : Machine, m.Reachable → m.AtTop) ∧
    (∀ m : Machine, m.AtTop → ∀ fuel (p : Program) before s after,
      p.statements = before ++ s :: after → ∀ m₁ flow m₂,
        runStatements fuel before { m with sourceName := p.sourceName } = .ok () m₁ →
        (evaluator fuel).stmt s m₁ = .ok flow m₂ → flow = .normal) ∧
    (∀ n (m : Machine) (f : FunctionValue) invokedAs name values flow m',
      (evaluator n).stmt f.definition.body
        (m.enter (calleeFrame f invokedAs name values m.frames.current)) = .ok flow m' →
      flow = .normal ∨ flow = .returnValue ∧ ∃ v, m'.frames.current.returnValue = some v) ∧
    (∀ n (m m₁ : Machine) (f : FunctionValue) invokedAs name values line,
      (m.enter (calleeFrame f invokedAs name values m.frames.current)).Confined m₁ →
      (∃ e m₂, (evaluator (n + 1)).stmt (.breakLoop line) m₁ = .error e m₂ ∧
        e.fault = .breakOutsideLoop ∧ m₂.leave.frames = m.frames) ∧
      ∃ e m₂, (evaluator (n + 1)).stmt (.continueLoop line) m₁ = .error e m₂ ∧
        e.fault = .continueOutsideLoop ∧ m₂.leave.frames = m.frames) := by
  refine ⟨fun n s m flow m' h => flow_of_stmt h, fun m hm => hm.atTop,
    fun m hm fuel p before s after _ m₁ flow m₂ hbefore hs => ?_,
    fun n m f invokedAs name values flow m' h => ?_,
    fun n m m₁ f invokedAs name values line hm₁ => ?_⟩
  · have hstart : ({ m with sourceName := p.sourceName } : Machine).AtTop :=
      ⟨hm.calls, hm.loopDepth, hm.insideFunction⟩
    have htop : m₁.AtTop :=
      hstart.confined (confined_of_runStatements (congrArg Result.machine? hbefore))
    exact htop.flow_eq_normal hs
  · rcases flow_outside_loops h (loopDepth_calleeFrame _ _ _ _ _) with hnormal | ⟨hreturn, -, hv⟩
    · exact .inl hnormal
    · exact .inr ⟨hreturn, hv⟩
  · have hdepth : m₁.frames.current.loopDepth = 0 :=
      hm₁.frames.call.loopDepth.trans (loopDepth_calleeFrame _ _ _ _ _)
    obtain ⟨⟨e, m₂, h, hfault, hc⟩, e', m₂', h', hfault', hc'⟩ := fails_outside_loops hdepth n line
    exact ⟨⟨e, m₂, h, hfault, (hm₁.trans hc).frames.pop_eq⟩,
      e', m₂', h', hfault', (hm₁.trans hc').frames.pop_eq⟩

/-! ## A break in a function that a loop calls -/

/-- The statement `while (true) { break; }`. -/
def leftAtOnce : Stmt :=
  .whileLoop ⟨[.instr (.bool true)], 1⟩ (.block [.breakLoop 1] 1) 1

/-- The function `func () -> void { return; }`. -/
def returning : FunctionValue where
  definition := {
    params := [], returnType := .void, returnsRef := false, captures := false
    body := .block [.returnValue none 1] 1, line := 1 }

/-- A fresh machine, in a loop of the top level. -/
def looping : Machine :=
  (Machine.create {} .builtin .silent {}).modifyFrame fun f => { f with loopDepth := 1 }

/-- The machine inside a call of the function from there. -/
def callee : Machine :=
  looping.enter (calleeFrame returning none "f" [] looping.frames.current)

theorem flow_contained_callee :
    (∃ m', (evaluator 9).stmt (.breakLoop 1) looping = .ok .breakLoop m' ∧
      0 < looping.frames.current.loopDepth) ∧
    (∃ m flow m', m.Reachable ∧ (evaluator 9).stmt leftAtOnce m = .ok flow m' ∧ flow = .normal) ∧
    (∃ flow m', (evaluator 9).stmt returning.definition.body callee = .ok flow m' ∧
      flow ≠ .normal ∧ ∃ v, m'.frames.current.returnValue = some v) ∧
    ∃ e m', (evaluator 9).stmt (.breakLoop 1) callee = .error e m' ∧
      e.fault = .breakOutsideLoop ∧ m'.leave.frames = looping.frames := by
  obtain ⟨hstmt, hreachable, hprogram, hbody, hstray⟩ := flow_contained
  have hbreak : ∃ m', (evaluator 9).stmt (.breakLoop 1) looping = .ok .breakLoop m' := ⟨_, rfl⟩
  have hleft : ∃ flow m', (evaluator 9).stmt leftAtOnce (Machine.create {} .builtin .silent {}) =
      .ok flow m' := ⟨_, _, rfl⟩
  have hreturn : ∃ m', (evaluator 9).stmt returning.definition.body callee =
      .ok .returnValue m' := ⟨_, rfl⟩
  obtain ⟨m₁, hbreak⟩ := hbreak
  obtain ⟨flow, m₂, hleft⟩ := hleft
  obtain ⟨m₃, hreturn⟩ := hreturn
  have hm : (Machine.create {} .builtin .silent {}).Reachable := .create _ _ _
  refine ⟨⟨m₁, hbreak, (hstmt _ _ _ _ _ hbreak).1 (.inl rfl)⟩, ⟨_, flow, m₂, hm, hleft, ?_⟩,
    ⟨_, m₃, hreturn, nofun, ?_⟩, (hstray 8 _ _ returning none "f" [] 1 (.refl _)).1⟩
  · exact hprogram _ (hreachable _ hm) 9 ⟨"<input>", [leftAtOnce]⟩ [] leftAtOnce [] rfl _ _ _ rfl hleft
  · exact ((hbody _ _ _ _ _ _ _ _ hreturn).resolve_left nofun).2

end HeapScript
