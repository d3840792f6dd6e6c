import HeapScript.Proofs.Law.Expression
import HeapScript.Proofs.Machine.Slot

/-!
# Statements and runs keep a law

* `Respects.statement`: one statement, by its kinds; loops by the number of rounds.
* `respects_evaluator`: the evaluator of any number of levels keeps the law, by
  induction on the levels.
* `after_runStatements`: so does a run of several statements.
-/

namespace HeapScript

namespace Law

variable {L : Law} {m : Machine} {E : Evaluator Expr} (hE : L.Respects E)

include hE

/-! ## Places and declarations -/

theorem Respects.steps {is : List Instr} (hi : ∀ i ∈ is, ∀ a ∈ i.exprs, a.Within L.Source L.Code)
    (hm : L.Inv m) : L.After m (fun _ _ => True) (E.steps is m) := by
  fun_induction Evaluator.steps E is generalizing m with
  | case1 name r ih =>
    refine after_bind (ih (fun i h => hi i (by simp [h])) hm) fun rest m₁ h₁ _ => ?_
    exact after_pure h₁.inv trivial
  | case2 idx r ih =>
    refine after_bind (hE.value (hi (.index idx) (by simp) idx (by simp [Instr.exprs])) hm)
      fun v m₁ h₁ _ => ?_
    refine after_bind (ih (fun i h => hi i (by simp [h])) h₁.inv) fun rest m₂ h₂ _ => ?_
    exact after_pure h₂.inv trivial
  | case3 => exact after_pure hm trivial

theorem Respects.referredPlace {target : Expr} (ht : target.Within L.Source L.Code) (hm : L.Inv m) :
    L.After m (fun _ _ => True) (E.referredPlace target m) := by
  refine after_bind (hE.hinted true ht hm) fun v m₁ h₁ _ => ?_
  cases v with
  | ref index => exact after_pure h₁.inv trivial
  | _ => exact after_fail h₁.inv (by simp)

theorem Respects.place {target : Expr} (ht : target.Within L.Source L.Code) (hm : L.Inv m) :
    L.After m (fun _ _ => True) (E.place target m) := by
  rw [Evaluator.place]
  rcases hflat : target.flatten with _ | ⟨i, rest⟩
  · exact hE.referredPlace ht hm
  cases i with
  | ident name =>
    by_cases hpath : isPath rest = true
    · simp only [hpath, if_true]
      have hrest : ∀ i ∈ rest, ∀ a ∈ i.exprs, a.Within L.Source L.Code := by
        intro i hi a ha
        refine ht.attached (i := i) ?_ ha
        rw [hflat]
        exact List.mem_cons_of_mem _ hi
      refine after_bind (hE.steps hrest hm) fun path m₁ h₁ _ => ?_
      exact after_pure h₁.inv trivial
    · simp only [hpath, Bool.false_eq_true, if_false]
      exact hE.referredPlace ht hm
  | _ => exact hE.referredPlace ht hm

theorem Respects.assignFrom {p : Place} (hp : p.path ≠ []) (op : AssignOp) {e : Expr}
    (he : e.Within L.Source L.Code)
    (hm : L.Inv m) : L.After m (fun _ _ => True) (E.assignFrom p op e m) := by
  have hstore : ∀ byRef m, L.Inv m → (byRef = true → ∃ m₀, L.Inv m₀ ∧ m₀.LeadsToRef p) →
      L.After m (fun _ _ => True) ((do
        let value ← E.hinted byRef e
        let _ ← Exec.assign p op value : Exec Unit) m) := by
    intro byRef m hm hr
    refine after_bind (hE.hinted byRef he hm) fun v m₁ h₁ hv => ?_
    have hslot : L.Data m₁ v ∨ ∃ m₀, L.Inv m₀ ∧ m₀.LeadsToRef p := by
      cases byRef with
      | false => exact .inl (hv.2 rfl)
      | true => exact .inr (hr rfl)
    refine after_bind (after_assign op h₁.inv hv.1 hslot (.inl hp)) fun w m₂ h₂ _ => ?_
    exact after_pure h₂.inv trivial
  cases op with
  | assign =>
    -- the value is computed after the slot was looked at, on another machine
    refine after_bind (Q := fun byRef _ => byRef = true → ∃ m₀, L.Inv m₀ ∧ m₀.LeadsToRef p)
      (after_check hm (tame_map _ (by simp)) fun byRef hb hr => ?_) fun byRef m₁ h₁ hb => ?_
    · obtain ⟨slot, hslot, rfl⟩ := map_eq_ok.1 hb
      exact ⟨m, hm, slot, hslot, hr⟩
    · exact hstore byRef m₁ h₁.inv hb
  | _ => exact hstore false m hm fun h => nomatch h

theorem Respects.declared {flags : DeclFlags} {ty : Ty} {name : String} {init : Option Expr}
    (ht : L.Declares flags.isRef ty) (hi : ∀ e ∈ init, e.Within L.Source L.Code) (hm : L.Inv m) :
    L.After m (fun v m' => L.Fits m' flags.isRef ty v ∧
        (flags.isRef = true → v.IsRef ∧ ty.accepts (m'.heap.typeOf v)))
      (E.declared flags ty name init m) := by
  cases init with
  | some e =>
    refine after_bind (hE.hinted flags.isRef (hi e rfl) hm) fun v m₁ h₁ hv => ?_
    refine after_check h₁.inv (by split <;> simp) fun w hw => ?_
    cases hr : flags.isRef with
    | true =>
      have hw := (by simpa [hr] using hw : m₁.expectReference ty (.declaration name) v = .ok w)
      exact ⟨L.reference h₁.inv (hr ▸ ht) hv.1 hw, fun _ => (Machine.expectReference_eq_ok hw).2⟩
    | false =>
      exact ⟨L.conform h₁.inv (hr ▸ ht) (hv.2 hr) (by simpa [hr] using hw), fun h => nomatch h⟩
  | none =>
    rw [Evaluator.declared]
    split
    · -- nothing refers to no chunk
      refine after_check hm (by simp) fun w hw => ?_
      cases hw
    · rename_i hr
      rw [Bool.not_eq_true] at hr
      refine after_pure hm ⟨?_, fun h => absurd h (by simp [hr])⟩
      rw [hr] at ht ⊢
      exact L.default m ht

theorem Respects.declaration {flags : DeclFlags} {ty : Ty} {name : String} {init : Option Expr}
    {line : Nat} (hc : L.Code (.decl flags ty name init line))
    (hi : ∀ e ∈ init, e.Within L.Source L.Code) (hm : L.Inv m) :
    L.After m (fun _ _ => True) (E.declaration flags ty name init m) := by
  refine after_bind (hE.declared (L.declares_of_decl hc) hi hm) fun v m₁ h₁ hv => after_modify ?_
  split
  · rename_i ha
    obtain ⟨hinv, hlater⟩ := L.allocate h₁.inv hc ha hv.1 hv.2
    refine ⟨?_, hinv, hlater⟩
    exact ((Machine.Confined.ofWorld m₁ _).trans (.declare _ _ _)).trans (.noteAllocation _)
  · obtain ⟨hinv, hlater⟩ := L.declare name
      (x := { ty, value := v, isConst := flags.isConst }) h₁.inv hv.1
    exact ⟨.declare _ _ _, hinv, hlater⟩

theorem Respects.returns {value : Option Expr} (hv : ∀ e ∈ value, e.Within L.Source L.Code)
    (hm : L.Inv m) : L.After m (fun _ _ => True) (E.returns value m) := by
  have hpending : ∀ v m, L.Inv m → L.Stored m v →
      L.After m (fun _ _ => True) ((do
        Exec.modify fun m => m.modifyFrame fun f => { f with returnValue := some v }
        return Flow.returnValue : Exec Flow) m) := by
    intro v m hm hv
    obtain ⟨hinv, hlater⟩ := L.pending hm hv
    refine after_bind (after_modify ⟨?_, hinv, hlater⟩) fun _ m₁ h₁ _ => after_pure h₁.inv trivial
    exact .modifyFrame fun _ => ⟨rfl, rfl, rfl, rfl⟩
  have hvoid : ∀ m, L.Stored m .void := fun m => L.stored_of_data (L.void m)
  refine after_bind (Q := fun _ _ => True) (after_read hm trivial) fun frame m₁ h₁ _ => ?_
  by_cases hf : frame.insideFunction = true
  · rw [hf]
    cases value with
    | none => exact hpending .void m₁ h₁.inv (hvoid m₁)
    | some e =>
      by_cases he : e.isEmpty = true
      · simp only [he]
        exact hpending .void m₁ h₁.inv (hvoid m₁)
      · simp only [he]
        refine after_bind (hE.hinted frame.returnsRef (hv e rfl) h₁.inv) fun v m₂ h₂ hw => ?_
        exact hpending v m₂ h₂.inv hw.1
  · simp only [hf]
    exact after_fail h₁.inv (by simp)

/-! ## Statements -/

theorem Respects.block {body : List Stmt} (hb : ∀ s ∈ body, s.Within L.Source L.Code)
    (hm : L.Inv m) :
    L.After m (fun _ _ => True) (E.block body m) := by
  induction body generalizing m with
  | nil => exact after_pure hm trivial
  | cons s r ih =>
    refine after_bind (hE.stmt (hb s List.mem_cons_self) hm) fun flow m₁ h₁ _ => ?_
    cases flow with
    | normal => exact ih (fun t ht => hb t (List.mem_cons_of_mem _ ht)) h₁.inv
    | _ => exact after_pure h₁.inv trivial

theorem Respects.goesOn {cond : Option Expr} (hc : ∀ e ∈ cond, e.Within L.Source L.Code)
    (hm : L.Inv m) :
    L.After m (fun _ _ => True) (E.goesOn cond m) := by
  cases cond with
  | none => exact after_pure hm trivial
  | some c =>
    rw [Evaluator.goesOn]
    by_cases hempty : c.isEmpty = true
    · rw [if_pos hempty]
      exact after_pure hm trivial
    · rw [if_neg hempty]
      exact hE.condition (hc c rfl) hm

theorem Respects.afterBody {step : Option Stmt} (hs : ∀ s ∈ step, s.Within L.Source L.Code)
    (flow : Flow)
    (hm : L.Inv m) : L.After m (fun _ _ => True) (E.afterBody step flow m) := by
  cases flow with
  | breakLoop | returnValue => exact after_pure hm trivial
  | normal | continueLoop =>
    cases step with
    | none => exact after_pure hm trivial
    | some s =>
      refine after_bind (hE.stmt (hs s rfl) hm) fun _ m₁ h₁ _ => ?_
      exact after_pure h₁.inv trivial

theorem Respects.round {cond : Option Expr} {step : Option Stmt} {body : Stmt}
    (hc : ∀ e ∈ cond, e.Within L.Source L.Code) (hs : ∀ s ∈ step, s.Within L.Source L.Code)
    (hb : body.Within L.Source L.Code) (hm : L.Inv m) :
    L.After m (fun _ _ => True) (E.round cond step body m) := by
  refine after_bind (hE.goesOn hc hm) fun goOn m₁ h₁ _ => ?_
  cases goOn with
  | false => exact after_pure h₁.inv trivial
  | true =>
    refine after_bind (hE.stmt hb h₁.inv) fun flow m₂ h₂ _ => ?_
    exact hE.afterBody hs flow h₂.inv

/-- The rounds of a loop, by induction on how many it may take. -/
theorem Respects.loop {cond : Option Expr} {step : Option Stmt} {body : Stmt}
    (hc : ∀ e ∈ cond, e.Within L.Source L.Code) (hs : ∀ s ∈ step, s.Within L.Source L.Code)
    (hb : body.Within L.Source L.Code) (n : Nat) (hm : L.Inv m) :
    L.After m (fun _ _ => True) (E.loop cond step body n m) := by
  induction n generalizing m with
  | zero => trivial
  | succ n ih =>
    have hr := hE.round hc hs hb hm
    rw [Evaluator.loop]
    cases h : E.round cond step body m with
    | ok next m₁ =>
      rw [h] at hr
      cases next with
      | none => exact (ih hr.1.inv).of_next hr.1
      | some flow => exact hr
    | error e m₁ =>
      rw [h] at hr
      exact hr
    | outOfFuel => trivial

/-- What a statement does, by its kinds. -/
theorem Respects.dispatch {s : Stmt} (hs : s.Within L.Source L.Code) (n : Nat) (hm : L.Inv m) :
    L.After m (fun _ _ => True) (E.dispatch n s m) := by
  have he : ∀ e ∈ s.exprs, e.Within L.Source L.Code := fun e h => hs.own h
  have hp : ∀ t ∈ s.parts, t.Within L.Source L.Code := fun t h => hs.part h
  cases s with
  | expr e line =>
    refine after_bind (hE.value (he e (by simp [Stmt.exprs])) hm) fun _ m₁ h₁ _ => ?_
    exact after_pure h₁.inv trivial
  | decl flags ty name init line =>
    refine after_bind (hE.declaration hs.self (fun e h => he e (by simpa [Stmt.exprs] using h)) hm)
      fun _ m₁ h₁ _ => ?_
    exact after_pure h₁.inv trivial
  | classDef c line =>
    obtain ⟨hinv, hlater⟩ := L.declare c.name
      (x := { ty := .classTy, value := .classDef c, isConst := true }) hm (L.classDef m hs.self)
    exact after_bind (after_modify ⟨.declare _ _ _, hinv, hlater⟩) fun _ m₁ h₁ _ =>
      after_pure h₁.inv trivial
  | ifThen cond thenBranch elseBranch line =>
    refine after_bind (hE.condition (he cond (by simp [Stmt.exprs])) hm) fun b m₁ h₁ _ => ?_
    cases b with
    | true => exact hE.stmt (hp thenBranch (by simp [Stmt.parts])) h₁.inv
    | false =>
      cases elseBranch with
      | some t => exact hE.stmt (hp t (by simp [Stmt.parts])) h₁.inv
      | none => exact after_pure h₁.inv trivial
  | whileLoop cond body line =>
    refine after_inLoop (fun m hm => hE.loop (fun e h => ?_) (fun _ h => by cases h) ?_ n hm) hm
    · cases h
      exact he _ (by simp [Stmt.exprs])
    · exact hp body (by simp [Stmt.parts])
  | forLoop init cond step body line =>
    have hloop : ∀ m, L.Inv m →
        L.After m (fun _ _ => True) (Exec.inLoop (E.loop cond step body n) m) := by
      intro m hm
      refine after_inLoop (fun m hm => hE.loop (fun e h => ?_) (fun t h => ?_) ?_ n hm) hm
      · exact he e (by simpa [Stmt.exprs] using h)
      · exact hp t (by simp [Stmt.parts, Option.mem_def.1 h])
      · exact hp body (by simp [Stmt.parts])
    cases init with
    | none => exact hloop m hm
    | some t =>
      exact after_bind (hE.stmt (hp t (by simp [Stmt.parts])) hm) fun _ m₁ h₁ _ => hloop m₁ h₁.inv
  | block body line => exact hE.block (fun t h => hp t (by simpa [Stmt.parts] using h)) hm
  | breakLoop line | continueLoop line =>
    refine after_bind (Q := fun _ _ => True) (after_read hm trivial) fun b m₁ h₁ _ => ?_
    cases b with
    | true => exact after_pure h₁.inv trivial
    | false => exact after_fail h₁.inv (by simp)
  | returnValue value line => exact hE.returns (fun e h => he e (by simpa [Stmt.exprs] using h)) hm
  | setMember target member op value line =>
    refine after_bind (hE.place (he target (by simp [Stmt.exprs])) hm) fun p m₁ h₁ _ => ?_
    refine after_bind (hE.assignFrom (by simp [Place.push]) op
      (he value (by simp [Stmt.exprs])) h₁.inv) fun _ m₂ h₂ _ => ?_
    exact after_pure h₂.inv trivial
  | setIndex target index op value line =>
    refine after_bind (hE.place (he target (by simp [Stmt.exprs])) hm) fun p m₁ h₁ _ => ?_
    refine after_bind (hE.value (he index (by simp [Stmt.exprs])) h₁.inv) fun _ m₂ h₂ _ => ?_
    refine after_bind (hE.assignFrom (by simp [Place.push]) op
      (he value (by simp [Stmt.exprs])) h₂.inv) fun _ m₃ h₃ _ => ?_
    exact after_pure h₃.inv trivial
  | nop line => exact after_pure hm trivial

theorem Respects.statement {s : Stmt} (hs : s.Within L.Source L.Code) (n : Nat) (hm : L.Inv m) :
    L.After m (fun _ _ => True) (E.statement n s m) := by
  obtain ⟨hinv, hlater, -⟩ := L.touch (g := fun f => { f with line := s.line }) hm
    fun f => ⟨rfl, rfl, rfl⟩
  refine after_bind (after_modify ⟨.modifyFrame fun _ => ⟨rfl, rfl, rfl, rfl⟩, hinv, hlater⟩)
    fun _ m₁ h₁ _ => ?_
  exact after_located (hE.dispatch hs n h₁.inv)

omit hE

/-! ## Runs -/

/-- Every evaluator keeps every law. -/
theorem respects_evaluator (L : Law) : ∀ n, L.Respects (evaluator n)
  | 0 => ⟨fun _ _ => trivial, fun _ _ => trivial⟩
  | n + 1 =>
    have ih := respects_evaluator L n
    ⟨fun hs hm => ih.statement hs n hm, fun he hm => ih.expression he hm⟩

theorem after_runStatements (fuel : Nat) {body : List Stmt}
    (hb : ∀ s ∈ body, s.Within L.Source L.Code)
    (hm : L.Inv m) : L.After m (fun _ _ => True) (runStatements fuel body m) := by
  induction body generalizing m with
  | nil => exact after_pure hm trivial
  | cons s r ih =>
    refine after_bind ((respects_evaluator L fuel).stmt (hb s List.mem_cons_self) hm)
      fun _ m₁ h₁ _ => ?_
    exact ih (fun t ht => hb t (List.mem_cons_of_mem _ ht)) h₁.inv

end Law

end HeapScript
