import HeapScript.Proofs.Eval.Flow

/-!
# Which jumps leave a statement

* `Stmt.Exits` says so of a statement as it is written: a jump stands in it, and in no loop
  that it belongs to. `Stmt.Straight` is the case of no jump.
* `Exec.JumpsBy`: a computation that succeeds ends normally or with one of some jumps. Blocks
  hand on all that their statements end with, loops the returns.
* `jumpsBy_stmt`: a statement that succeeds ends normally or with a jump that leaves it.
-/

namespace HeapScript

/-- The statement may end with the flow, because such a jump stands in it. A loop keeps the
jumps that belong to it. -/
inductive Stmt.Exits : Stmt → Flow → Prop
  | breakLoop (line : Nat) : Exits (.breakLoop line) .breakLoop
  | continueLoop (line : Nat) : Exits (.continueLoop line) .continueLoop
  | returnValue (value : Option Expr) (line : Nat) : Exits (.returnValue value line) .returnValue
  | thenBranch {cond : Expr} {s : Stmt} {t : Option Stmt} {line : Nat} {flow : Flow} :
    s.Exits flow → Exits (.ifThen cond s t line) flow
  | elseBranch {cond : Expr} {s t : Stmt} {line : Nat} {flow : Flow} :
    t.Exits flow → Exits (.ifThen cond s (some t) line) flow
  | member {body : List Stmt} {s : Stmt} {line : Nat} {flow : Flow} : s ∈ body → s.Exits flow →
    Exits (.block body line) flow
  | whileBody {cond : Expr} {body : Stmt} {line : Nat} : body.Exits .returnValue →
    Exits (.whileLoop cond body line) .returnValue
  | forBody {init : Option Stmt} {cond : Option Expr} {step : Option Stmt} {body : Stmt}
    {line : Nat} : body.Exits .returnValue → Exits (.forLoop init cond step body line) .returnValue

/-- No jump leaves the statement. -/
def Stmt.Straight (s : Stmt) : Prop :=
  ∀ flow, ¬s.Exits flow

namespace Exec

variable {α : Type} {x : Exec α} {P Q : Flow → Prop}

/-- If the computation succeeds, it ends normally or with such a jump. -/
def JumpsBy (P : Flow → Prop) (x : Exec Flow) : Prop :=
  ∀ m flow m', x m = .ok flow m' → flow = .normal ∨ P flow

theorem JumpsBy.mono {x : Exec Flow} (hx : x.JumpsBy P) (h : ∀ flow, P flow → Q flow) :
    x.JumpsBy Q :=
  fun m flow m' hflow => (hx m flow m' hflow).imp_right (h flow)

theorem jumpsBy_normal : (pure .normal : Exec Flow).JumpsBy P := by
  intro m flow m' h
  exact .inl (pure_ok_iff.1 h).1.symm

theorem jumpsBy_pure {flow : Flow} (h : P flow) : (pure flow : Exec Flow).JumpsBy P := by
  intro m flow' m' hflow
  exact .inr ((pure_ok_iff.1 hflow).1 ▸ h)

theorem jumpsBy_fail (f : Fault) : (fail f : Exec Flow).JumpsBy P := by
  intro m flow m' h
  cases h

theorem jumpsBy_bind {f : α → Exec Flow} (hf : ∀ a, (f a).JumpsBy P) : (x >>= f).JumpsBy P := by
  intro m flow m' h
  obtain ⟨a, m₁, -, h⟩ := bind_ok_iff.1 h
  exact hf a m₁ flow m' h

theorem jumpsBy_inLoop {x : Exec Flow} (hx : x.JumpsBy P) : (inLoop x).JumpsBy P := by
  intro m flow m' h
  obtain ⟨m₁, m₂, hr, -⟩ := inLoop_ok h
  exact hx m₁ flow m₂ hr

end Exec

namespace Evaluator

open Exec

variable {E : Evaluator Expr} {P : Flow → Prop}

theorem jumpsBy_block {body : List Stmt} (hb : ∀ s ∈ body, (E.stmt s).JumpsBy P) :
    (E.block body).JumpsBy P := by
  induction body with
  | nil => exact jumpsBy_normal
  | cons s r ih =>
    intro m flow m' h
    obtain ⟨flow', m₁, hs, h⟩ := bind_ok_iff.1 h
    have hfirst := hb s List.mem_cons_self m flow' m₁ hs
    cases flow' with
    | normal => exact ih (fun t ht => hb t (List.mem_cons_of_mem s ht)) m₁ flow m' h
    | breakLoop | continueLoop | returnValue =>
      rw [← (pure_ok_iff.1 h).1]
      exact hfirst

/-- Of the jumps in its body, a loop hands on the return only. -/
theorem jumpsBy_loop (cond : Option Expr) (step : Option Stmt) {body : Stmt}
    (hb : (E.stmt body).JumpsBy P) (n : Nat) :
    Exec.JumpsBy (fun flow => flow = .returnValue ∧ P .returnValue) (E.loop cond step body n) := by
  intro m flow m' h
  refine (loop_ok h).imp_right ?_
  rintro ⟨rfl, m₁, hbody⟩
  exact ⟨rfl, (hb m₁ _ m' hbody).resolve_left (by decide)⟩

theorem jumpsBy_returns (value : Option Expr) :
    (E.returns value).JumpsBy fun flow => flow = .returnValue :=
  fun _ _ _ h => .inr (returns_ok h).1

/-- What leaves a statement leaves it from one of its parts. -/
theorem jumpsBy_dispatch (hE : ∀ s, (E.stmt s).JumpsBy s.Exits) (n : Nat) (s : Stmt) :
    (E.dispatch n s).JumpsBy s.Exits := by
  cases s with
  | expr _ _ | decl _ _ _ _ _ | classDef _ _ => exact jumpsBy_bind fun _ => jumpsBy_normal
  | nop _ => exact jumpsBy_normal
  | setMember _ _ _ _ _ => exact jumpsBy_bind fun _ => jumpsBy_bind fun _ => jumpsBy_normal
  | setIndex _ _ _ _ _ =>
    exact jumpsBy_bind fun _ => jumpsBy_bind fun _ => jumpsBy_bind fun _ => jumpsBy_normal
  | ifThen cond thenBranch elseBranch line =>
    refine jumpsBy_bind fun b => ?_
    cases b with
    | true => exact (hE thenBranch).mono fun _ => .thenBranch
    | false =>
      cases elseBranch with
      | some t => exact (hE t).mono fun _ => .elseBranch
      | none => exact jumpsBy_normal
  | whileLoop cond body line =>
    refine jumpsBy_inLoop ((jumpsBy_loop _ _ (hE body) n).mono ?_)
    rintro _ ⟨rfl, hbody⟩
    exact .whileBody hbody
  | forLoop init cond step body line =>
    have hloop : (inLoop (E.loop cond step body n)).JumpsBy
        (Stmt.forLoop init cond step body line).Exits := by
      refine jumpsBy_inLoop ((jumpsBy_loop _ _ (hE body) n).mono ?_)
      rintro _ ⟨rfl, hbody⟩
      exact .forBody hbody
    cases init with
    | none => exact hloop
    | some t => exact jumpsBy_bind fun _ => hloop
  | block body line => exact jumpsBy_block fun s hs => (hE s).mono fun _ => .member hs
  | breakLoop line =>
    refine jumpsBy_bind fun b => ?_
    cases b with
    | true => exact jumpsBy_pure (.breakLoop line)
    | false => exact jumpsBy_fail _
  | continueLoop line =>
    refine jumpsBy_bind fun b => ?_
    cases b with
    | true => exact jumpsBy_pure (.continueLoop line)
    | false => exact jumpsBy_fail _
  | returnValue value line =>
    refine (jumpsBy_returns value).mono ?_
    rintro _ rfl
    exact .returnValue value line

end Evaluator

/-- A statement that succeeds ends normally or with a jump that stands in it. -/
theorem jumpsBy_stmt (n : Nat) (s : Stmt) : ((evaluator n).stmt s).JumpsBy s.Exits := by
  induction n generalizing s with
  | zero =>
    intro m flow m' h
    cases h
  | succ n ih =>
    refine Exec.jumpsBy_bind fun _ => ?_
    intro m flow m' h
    exact Evaluator.jumpsBy_dispatch ih n s m flow m' (Exec.located_ok_iff.1 h)

theorem Stmt.Straight.ends {s : Stmt} (hs : s.Straight) {n : Nat} {m m' : Machine} {flow : Flow}
    (h : (evaluator n).stmt s m = .ok flow m') : flow = .normal :=
  (jumpsBy_stmt n s m flow m' h).resolve_right (hs flow)

end HeapScript
