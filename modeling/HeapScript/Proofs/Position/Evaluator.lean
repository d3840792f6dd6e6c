import HeapScript.Proofs.Position.Basic

/-!
# Evaluations and the lines they are at

* `Situates` says of an evaluator at which lines its expressions and its statements leave
  the innermost frame, and where they fail.
* `Situates.call` and `Situates.expression`: an expression stays at its line, whatever it
  calls. `Situates.dispatch`: what a statement does itself, it does at its own line, unless
  it is a loop that looks at its condition again.
* `situates_evaluator` is the induction on the levels.
-/

namespace HeapScript

namespace Law

variable {L : Law} {m : Machine}

/-- The evaluator keeps the law; an expression stays at its line; a statement fails only
where it, or one of its parts, was executed. -/
structure Situates (L : Law) (E : Evaluator Expr) : Prop extends L.Respects E where
  stands {s : Stmt} {m : Machine} : s.Within L.Source L.Code → L.Inv m →
    L.Stands s.Covers (fun _ => False) m (E.stmt s m)
  stays {e : Expr} {m : Machine} : e.Within L.Source L.Code → L.Inv m → L.Stays m (E.expr e m)

namespace Situates

variable {E : Evaluator Expr} (hE : L.Situates E)

include hE

/-! ## Calls -/

theorem value {e : Expr} (he : e.Within L.Source L.Code) (hm : L.Inv m) :
    L.Stays m (E.value e m) :=
  (hE.stays he hm).steady fun _ => Exec.steady_check _

theorem hinted {e : Expr} (byRef : Bool) (he : e.Within L.Source L.Code) (hm : L.Inv m) :
    L.Stays m (E.hinted byRef e m) := by
  cases byRef with
  | false => exact hE.value he hm
  | true => exact (hE.stays he hm).steady fun _ => Exec.steady_check _

theorem condition {e : Expr} (he : e.Within L.Source L.Code) (hm : L.Inv m) :
    L.Stays m (E.condition e m) := by
  refine (hE.value he hm).steady fun v => ?_
  cases v with
  | bool b => exact Exec.steady_pure b
  | _ => exact Exec.steady_fail _

theorem slotValues (use : String → RefUse) {ps : List Param} {args : List Expr}
    (ha : ∀ a ∈ args, a.Within L.Source L.Code) (hm : L.Inv m) :
    L.Stays m (E.slotValues use ps args m) := by
  induction ps generalizing args m with
  | nil => cases args <;> exact .of_steady (Exec.steady_pure []) rfl
  | cons p ps ih =>
    obtain _ | ⟨a, args⟩ := args
    · exact .of_steady (Exec.steady_pure []) rfl
    have hhere := ha a List.mem_cons_self
    refine Stays.bind (hE.hinted p.isRef hhere hm) (hE.toRespects.hinted p.isRef hhere hm)
      fun v m₁ h₁ _ => ?_
    refine stands_check rfl fun w _ => ?_
    refine (ih (fun b hb => ha b (List.mem_cons_of_mem _ hb)) h₁.inv).steady fun ws => ?_
    exact Exec.steady_pure _

theorem callNative (f : Native) {args : List Expr} (ha : ∀ a ∈ args, a.Within L.Source L.Code)
    (hm : L.Inv m) : L.Stays m (E.callNative f args m) := by
  refine stands_check rfl fun _ _ => ?_
  refine (stays_each hm (fun a h m hm => ?_)
    fun a h m hm => hE.hinted f.takesRefs (ha a h) hm).steady fun values m => ?_
  · exact (hE.toRespects.hinted f.takesRefs (ha a h) hm).mono fun _ _ _ _ => trivial
  · rcases f.run m.frames values m.toWorld with ⟨_ | _, world⟩
    · exact ⟨rfl, rfl⟩
    · exact rfl

theorem runBody {f : Frame} {body : Stmt} (hb : body.Within L.Source L.Code)
    (hf : L.Inv (m.enter f)) : L.Stays m (E.runBody f body m) := by
  refine (stays_inFrame (hE.stands hb hf) (hE.stmt hb hf)).steady fun r => ?_
  obtain ⟨flow, value⟩ := r
  cases flow <;> exact Exec.steady_pure _

theorem callFunction {f : FunctionValue} (invokedAs : Option String) {args : List Expr}
    (hf : L.Data m (.function f)) (ha : ∀ a ∈ args, a.Within L.Source L.Code) (hm : L.Inv m) :
    L.Stays m (E.callFunction f invokedAs args m) := by
  rw [Evaluator.callFunction]
  split
  · exact .of_steady (Exec.steady_fail _) rfl
  rename_i hlen
  show L.Stays m ((if m.config.maxCallDepth ≤ m.frames.depth then _ else _ : Exec Value) m)
  split
  · exact .of_steady (Exec.steady_fail _) rfl
  refine Stays.bind (hE.slotValues .parameter ha hm) (hE.toRespects.slotValues .parameter
    (fun p hp => L.declares_of_param hf hp) (Classical.not_not.1 hlen) ha hm)
    fun values m₁ h₁ hvalues => ?_
  have hf₁ := L.data_later h₁.later hf
  show L.Stays m₁ ((E.runBody (calleeFrame f invokedAs (f.callName invokedAs) values
    m₁.frames.current) f.definition.body >>= _) m₁)
  refine (hE.runBody (L.body hf₁) (L.enter invokedAs _ h₁.inv hf₁ hvalues)).steady fun v => ?_
  exact Exec.steady_check _

theorem construct (c : ClassDef) {args : List Expr} (ha : ∀ a ∈ args, a.Within L.Source L.Code)
    (hm : L.Inv m) : L.Stays m (E.construct c args m) := by
  rw [Evaluator.construct]
  split
  · exact .of_steady (Exec.steady_fail _) rfl
  exact (hE.slotValues .member ha hm).steady fun _ => Exec.steady_pure _

theorem fill (template : String) {args : List Expr}
    (ha : ∀ a ∈ args, a.Within L.Source L.Code) (hm : L.Inv m) :
    L.Stays m (E.fill template args m) := by
  refine (stays_each hm (fun a h m hm => ?_) fun a h m hm => ?_).steady fun shown => ?_
  · exact after_bind (hE.toRespects.value (ha a h) hm) fun _ _ hn _ => after_read hn.inv trivial
  · exact (hE.value (ha a h) hm).steady fun _ => Exec.steady_read _
  · exact Exec.steady_bind (Exec.steady_check _) fun _ => Exec.steady_pure _

theorem call {callee : Value} {args : List Expr} (hc : L.Operand m callee)
    (ha : ∀ a ∈ args, a.Within L.Source L.Code) (hm : L.Inv m) :
    L.Stays m (E.call callee args m) := by
  refine stands_read ?_
  generalize Evaluator.native? m callee = native
  cases native with
  | some f => exact hE.callNative f ha hm
  | none =>
    refine stands_check rfl fun v hv => ?_
    have hv := data_of_operand hm hc hv
    cases v with
    | function f => exact hE.callFunction _ hv ha hm
    | classDef c => exact hE.construct c ha hm
    | str template => exact hE.fill template ha hm
    | _ => exact Stays.of_steady (Exec.steady_fail _) rfl

/-! ## Expressions -/

/-- Only calls, and the elements and indices in an instruction, run anything. -/
theorem instr {e : Expr} (he : e.Within L.Source L.Code) {i : Instr} (hi : i ∈ e.flatten)
    {stack : List Value} (hs : L.Operands e m stack) (hm : L.Inv m) :
    L.Stays m (E.instr i stack m) := by
  have hfail : L.Stays m ((Exec.fail .missingOperand : Exec (List Value)) m) :=
    .of_steady (Exec.steady_fail _) rfl
  have hsteady {α : Type} (g : Machine → Except Fault α) (f : α → List Value) :
      L.Stays m ((do let v ← Exec.check g; return f v : Exec (List Value)) m) :=
    .of_steady (Exec.steady_bind (Exec.steady_check g) fun v => Exec.steady_pure _) rfl
  cases i with
  | num | str | bool | ident | function => exact .of_steady (Exec.steady_pure _) rfl
  | array elements =>
    refine (stays_each hm (fun a h m hm => ?_) fun a h m hm => ?_).steady fun items => ?_
    · exact (hE.toRespects.value (he.attached hi h) hm).mono fun _ _ _ _ => trivial
    · exact hE.value (he.attached hi h) hm
    · exact Exec.steady_bind (Exec.steady_check _) fun _ => Exec.steady_pure _
  | binary op =>
    rcases stack with _ | ⟨right, _ | ⟨left, rest⟩⟩
    · exact hfail
    · exact hfail
    · exact hsteady _ _
  | unary op =>
    cases stack with
    | nil => exact hfail
    | cons operand rest => exact hsteady _ _
  | assign op =>
    rcases stack with _ | ⟨value, _ | ⟨target, rest⟩⟩
    · exact hfail
    · exact hfail
    · cases target with
      | ident name =>
        refine .of_steady (Exec.steady_bind (Exec.steady_check _) fun v => ?_) rfl
        exact Exec.steady_bind (Exec.steady_assign _ _ _) fun _ => Exec.steady_pure _
      | _ => exact Stays.of_steady (Exec.steady_fail _) rfl
  | member =>
    rcases stack with _ | ⟨member, _ | ⟨object, rest⟩⟩
    · exact hfail
    · exact hfail
    · exact hsteady _ _
  | call args =>
    cases stack with
    | nil => exact hfail
    | cons callee rest =>
      refine (hE.call (hs.operand (v := callee) (by simp))
        (fun a h => he.attached hi (List.mem_of_mem_filter h)) hm).steady fun v => ?_
      exact Exec.steady_pure _
  | index idx =>
    cases stack with
    | nil => exact hfail
    | cons target rest =>
      refine (hE.value (he.attached hi (by simp [Instr.exprs])) hm).steady fun index => ?_
      exact Exec.steady_bind (Exec.steady_check _) fun _ => Exec.steady_pure _

theorem instrs {e : Expr} (he : e.Within L.Source L.Code) {is : List Instr}
    (hi : ∀ i ∈ is, i ∈ e.flatten) {stack : List Value} (hs : L.Operands e m stack) (hm : L.Inv m)
    (hk : suffices? stack.length is = true ∨ ∀ m, L.Err m { fault := .missingOperand }) :
    L.Stays m (E.instrs is stack m) := by
  induction is generalizing stack m with
  | nil => exact .of_steady (Exec.steady_pure stack) rfl
  | cons i is ih =>
    have hhere := hi i List.mem_cons_self
    rw [suffices?, Bool.and_eq_true, decide_eq_true_eq] at hk
    refine Stays.bind (hE.instr he hhere hs hm) (hE.toRespects.instr he hhere hs hm
      (hk.imp And.left fun h => h m)) fun stack' m' hn hs' => ?_
    refine ih (fun j hj => hi j (List.mem_cons_of_mem _ hj)) hs'.2 hn.inv ?_
    rw [hs'.1]
    exact hk.imp_left And.right

theorem expression {e : Expr} (he : e.Within L.Source L.Code) (hm : L.Inv m) :
    L.Stays m (E.expression e m) := by
  have hk : suffices? 0 e.flatten = true ∨ ∀ m, L.Err m { fault := .missingOperand } := by
    cases h : suffices? 0 e.flatten with
    | true => exact .inl rfl
    | false => exact .inr fun m => L.missing he.self h
  have hnone : L.Operands e m [] := fun _ h => by cases h
  refine (hE.instrs he (fun _ h => h) hnone hm hk).steady fun stack => ?_
  exact Exec.steady_pure _

/-! ## Places and declarations -/

theorem steps {is : List Instr} (hi : ∀ i ∈ is, ∀ a ∈ i.exprs, a.Within L.Source L.Code)
    (hm : L.Inv m) : L.Stays m (E.steps is m) := by
  fun_induction Evaluator.steps E is generalizing m with
  | case1 name r ih =>
    exact (ih (fun i h => hi i (by simp [h])) hm).steady fun _ => Exec.steady_pure _
  | case2 idx r ih =>
    have hidx := hi (.index idx) (by simp) idx (by simp [Instr.exprs])
    refine Stays.bind (hE.value hidx hm) (hE.toRespects.value hidx hm) fun v m₁ h₁ _ => ?_
    exact (ih (fun i h => hi i (by simp [h])) h₁.inv).steady fun _ => Exec.steady_pure _
  | case3 => exact .of_steady (Exec.steady_pure _) rfl

theorem referredPlace {target : Expr} (ht : target.Within L.Source L.Code) (hm : L.Inv m) :
    L.Stays m (E.referredPlace target m) := by
  refine (hE.hinted true ht hm).steady fun v => ?_
  cases v with
  | ref index => exact Exec.steady_pure _
  | _ => exact Exec.steady_fail _

theorem place {target : Expr} (ht : target.Within L.Source L.Code) (hm : L.Inv m) :
    L.Stays m (E.place target m) := by
  rw [Evaluator.place]
  rcases hflat : target.flatten with _ | ⟨i, rest⟩
  · exact hE.referredPlace ht hm
  cases i with
  | ident name =>
    by_cases hpath : isPath rest = true
    · simp only [hpath, if_true]
      refine (hE.steps (fun i hi a ha => ht.attached (i := i) ?_ ha) hm).steady fun _ => ?_
      · rw [hflat]
        exact List.mem_cons_of_mem _ hi
      · exact Exec.steady_pure _
    · simp only [hpath, Bool.false_eq_true, if_false]
      exact hE.referredPlace ht hm
  | _ => exact hE.referredPlace ht hm

theorem assignFrom (p : Place) (op : AssignOp) {e : Expr} (he : e.Within L.Source L.Code)
    (hm : L.Inv m) : L.Stays m (E.assignFrom p op e m) := by
  have hstore (byRef : Bool) : L.Stays m ((do
      let value ← E.hinted byRef e
      let _ ← Exec.assign p op value : Exec Unit) m) :=
    (hE.hinted byRef he hm).steady fun _ =>
      Exec.steady_bind (Exec.steady_assign _ _ _) fun _ => Exec.steady_pure _
  cases op with
  | assign => exact stands_check rfl fun byRef _ => hstore byRef
  | _ => exact hstore false

theorem declared (flags : DeclFlags) (ty : Ty) (name : String) {init : Option Expr}
    (hi : ∀ e ∈ init, e.Within L.Source L.Code) (hm : L.Inv m) :
    L.Stays m (E.declared flags ty name init m) := by
  cases init with
  | some e => exact (hE.hinted flags.isRef (hi e rfl) hm).steady fun _ => Exec.steady_check _
  | none =>
    rw [Evaluator.declared]
    split
    · exact .of_steady (Exec.steady_check _) rfl
    · exact .of_steady (Exec.steady_pure _) rfl

theorem declaration (flags : DeclFlags) (ty : Ty) (name : String) {init : Option Expr}
    (hi : ∀ e ∈ init, e.Within L.Source L.Code) (hm : L.Inv m) :
    L.Stays m (E.declaration flags ty name init m) := by
  refine (hE.declared flags ty name hi hm).steady fun v => Exec.steady_modify fun m => ?_
  split
  · rw [Machine.frames_noteAllocation, Machine.line_declare]
  · exact m.line_declare _ _

theorem returns {value : Option Expr} (hv : ∀ e ∈ value, e.Within L.Source L.Code)
    (hm : L.Inv m) : L.Stays m (E.returns value m) := by
  have hpending (v : Value) : (do
      Exec.modify fun m => m.modifyFrame fun f => { f with returnValue := some v }
      return Flow.returnValue : Exec Flow).Steady := by
    refine Exec.steady_bind (Exec.steady_modify fun m => ?_) fun _ => Exec.steady_pure _
    rw [Machine.current_modifyFrame]
  refine stands_read ?_
  by_cases hf : m.frames.current.insideFunction = true
  · rw [hf]
    cases value with
    | none => exact Stays.of_steady (hpending .void) rfl
    | some e =>
      by_cases he : e.isEmpty = true
      · simp only [he]
        exact Stays.of_steady (hpending .void) rfl
      · simp only [he]
        exact (hE.hinted _ (hv e rfl) hm).steady hpending
  · simp only [hf]
    exact Stays.of_steady (Exec.steady_fail _) rfl

/-! ## Blocks and loops -/

/-- The statements of a block leave the frame at a line that one of them covers, if any of
them is executed. -/
theorem block {ok : Nat → Prop} {body : List Stmt}
    (hb : ∀ s ∈ body, s.Within L.Source L.Code) (hok : ∀ s ∈ body, ∀ l, s.Covers l → ok l)
    (hm : L.Inv m) (hline : ok m.frames.current.line) :
    L.Stands ok (fun _ => False) m (E.block body m) := by
  induction body generalizing m with
  | nil => exact hline
  | cons s r ih =>
    have hs := hb s List.mem_cons_self
    refine Stands.bind (hE.stands hs hm) (hE.stmt hs hm) fun flow m₁ h₁ _ hcovers => ?_
    have hline₁ := hok s List.mem_cons_self _ hcovers
    cases flow with
    | normal =>
      exact ih (fun t ht => hb t (List.mem_cons_of_mem _ ht))
        (fun t ht => hok t (List.mem_cons_of_mem _ ht)) h₁.inv hline₁
    | _ => exact hline₁

theorem afterBody {ok : Nat → Prop} {step : Option Stmt}
    (hs : ∀ s ∈ step, s.Within L.Source L.Code) (hok : ∀ s ∈ step, ∀ l, s.Covers l → ok l)
    (flow : Flow) (hm : L.Inv m) (hline : ok m.frames.current.line) :
    L.Stands ok (fun _ => False) m (E.afterBody step flow m) := by
  cases flow with
  | breakLoop | returnValue => exact hline
  | normal | continueLoop =>
    cases step with
    | none => exact hline
    | some s =>
      refine Stands.bind (hE.stands (hs s rfl) hm) (hE.stmt (hs s rfl) hm) fun _ m₁ _ _ h => ?_
      exact hok s rfl _ h

/-- A loop that looks at a condition does so at any line that was reached in it. -/
theorem round {ok err : Nat → Prop} {cond : Option Expr} {step : Option Stmt} {body : Stmt}
    (hc : ∀ e ∈ cond, e.Within L.Source L.Code) (hs : ∀ s ∈ step, s.Within L.Source L.Code)
    (hb : body.Within L.Source L.Code) (herr : ∀ e ∈ cond, e.isEmpty = false → ∀ l, ok l → err l)
    (hok : ∀ s ∈ body :: step.toList, ∀ l, s.Covers l → ok l) (hm : L.Inv m)
    (hline : ok m.frames.current.line) : L.Stands ok err m (E.round cond step body m) := by
  have hgoesOn : L.Stands ok err m (E.goesOn cond m) := by
    cases cond with
    | none => exact hline
    | some c =>
      rw [Evaluator.goesOn]
      by_cases hempty : c.isEmpty = true
      · rw [if_pos hempty]
        exact hline
      · rw [if_neg hempty]
        refine (hE.condition (hc c rfl) hm).mono ?_ ?_
        · rintro _ rfl
          exact hline
        · rintro _ rfl
          exact herr c rfl (by simpa using hempty) _ hline
  have hbody := hok body List.mem_cons_self
  have hstep : ∀ s ∈ step, ∀ l, s.Covers l → ok l := fun s h =>
    hok s (List.mem_cons_of_mem _ (Option.mem_toList.2 h))
  refine Stands.bind hgoesOn (hE.toRespects.goesOn hc hm) fun goOn m₁ h₁ _ hline₁ => ?_
  cases goOn with
  | false => exact hline₁
  | true =>
    have hround : L.Stands body.Covers err m₁ (E.stmt body m₁) :=
      (hE.stands hb h₁.inv).of_never fun _ h => h
    refine Stands.bind hround (hE.stmt hb h₁.inv) fun flow m₂ h₂ _ hcovers => ?_
    exact (hE.afterBody hs hstep flow h₂.inv (hbody _ hcovers)).of_never fun _ h => h

/-- The rounds of a loop, by induction on how many it may take. -/
theorem loop {ok err : Nat → Prop} {cond : Option Expr} {step : Option Stmt} {body : Stmt}
    (hc : ∀ e ∈ cond, e.Within L.Source L.Code) (hs : ∀ s ∈ step, s.Within L.Source L.Code)
    (hb : body.Within L.Source L.Code) (herr : ∀ e ∈ cond, e.isEmpty = false → ∀ l, ok l → err l)
    (hok : ∀ s ∈ body :: step.toList, ∀ l, s.Covers l → ok l) (n : Nat) (hm : L.Inv m)
    (hline : ok m.frames.current.line) : L.Stands ok err m (E.loop cond step body n m) := by
  induction n generalizing m with
  | zero => trivial
  | succ n ih =>
    have hround := hE.round hc hs hb herr hok hm hline
    have hafter := hE.toRespects.round hc hs hb hm
    rw [Evaluator.loop]
    cases h : E.round cond step body m with
    | ok next m₁ =>
      rw [h] at hround hafter
      cases next with
      | none => exact (ih hafter.1.inv hround).of_confined hafter.1.confined
      | some flow => exact hround
    | error e m₁ =>
      rw [h] at hround
      exact hround
    | outOfFuel => trivial

/-! ## Statements -/

/-- What a statement does, by its kinds, when the frame is at its line. -/
theorem dispatch {s : Stmt} (hs : s.Within L.Source L.Code) (n : Nat) (hm : L.Inv m)
    (hline : m.frames.current.line = s.line) :
    L.Stands s.Covers s.Shows m (E.dispatch n s m) := by
  have he : ∀ e ∈ s.exprs, e.Within L.Source L.Code := fun e h => hs.own h
  have hp : ∀ t ∈ s.parts, t.Within L.Source L.Code := fun t h => hs.part h
  have hhere : s.Covers m.frames.current.line := hline ▸ s.covers_self
  have hstays {α : Type} {r : Result α} (h : L.Stays m r) : L.Stands s.Covers s.Shows m r := by
    refine h.mono ?_ ?_
    · rintro _ rfl
      exact hhere
    · rintro _ rfl
      exact .inl hline
  have hpart {t : Stmt} (ht : t ∈ s.parts) {m' : Machine} (hm' : L.Inv m') :
      L.Stands s.Covers s.Shows m' (E.stmt t m') :=
    (hE.stands (hp t ht) hm').of_never fun _ h => h.part ht
  cases s with
  | expr e line =>
    exact hstays ((hE.value (he e (by simp [Stmt.exprs])) hm).steady fun _ => Exec.steady_pure _)
  | decl flags ty name init line =>
    refine hstays ((hE.declaration flags ty name (fun e h => he e ?_) hm).steady fun _ => ?_)
    · simpa [Stmt.exprs] using h
    · exact Exec.steady_pure _
  | classDef c line =>
    refine hstays (.of_steady (Exec.steady_bind (Exec.steady_modify fun m => ?_) fun _ => ?_) rfl)
    · exact m.line_declare _ _
    · exact Exec.steady_pure _
  | ifThen cond thenBranch elseBranch line =>
    have hcond := he cond (by simp [Stmt.exprs])
    refine Stands.bind (hstays (hE.condition hcond hm)) (hE.toRespects.condition hcond hm)
      fun b m₁ h₁ _ hcovers => ?_
    cases b with
    | true => exact hpart (by simp [Stmt.parts]) h₁.inv
    | false =>
      cases elseBranch with
      | some t => exact hpart (by simp [Stmt.parts]) h₁.inv
      | none => exact hcovers
  | whileLoop cond body line =>
    refine stands_inLoop hm fun m' hm' hline' => ?_
    refine hE.loop (fun e h => he e ?_) (fun _ h => by cases h) (hp body ?_) ?_ ?_ n hm'
      (hline' ▸ hhere)
    · simpa [Stmt.exprs, eq_comm] using h
    · simp [Stmt.parts]
    · rintro _ ⟨⟩ hcond l hl
      exact .inr ⟨hcond, hl⟩
    · intro t ht l hl
      exact hl.part (by simpa [Stmt.parts] using ht)
  | forLoop init cond step body line =>
    have hloop {m' : Machine} (hm' : L.Inv m')
        (hline' : (Stmt.forLoop init cond step body line).Covers m'.frames.current.line) :
        L.Stands (Stmt.forLoop init cond step body line).Covers
          (Stmt.forLoop init cond step body line).Shows m'
          (Exec.inLoop (E.loop cond step body n) m') := by
      refine stands_inLoop hm' fun m'' hm'' hline'' => ?_
      refine hE.loop (fun e h => he e ?_) (fun t h => hp t ?_) (hp body ?_) ?_ ?_ n hm''
        (hline'' ▸ hline')
      · simpa [Stmt.exprs] using h
      · simp [Stmt.parts, Option.mem_def.1 h]
      · simp [Stmt.parts]
      · rintro e ⟨⟩ hcond l hl
        exact .inr ⟨hcond, hl⟩
      · intro t ht l hl
        refine hl.part ?_
        rcases List.mem_cons.1 ht with rfl | ht
        · simp [Stmt.parts]
        · simp [Stmt.parts, Option.mem_toList.1 ht]
    cases init with
    | none => exact hloop hm hhere
    | some t =>
      have ht : t ∈ (Stmt.forLoop (some t) cond step body line).parts := by simp [Stmt.parts]
      exact Stands.bind (hpart ht hm) (hE.stmt (hp t ht) hm) fun _ m₁ h₁ _ hcovers =>
        hloop h₁.inv hcovers
  | block body line =>
    refine (hE.block (fun t h => hp t ?_) (fun t h l hl => hl.part ?_) hm hhere).of_never
      fun _ h => h
    · simpa [Stmt.parts] using h
    · simpa [Stmt.parts] using h
  | breakLoop line | continueLoop line =>
    refine hstays (stands_read ?_)
    split
    · exact Stays.of_steady (Exec.steady_pure _) rfl
    · exact Stays.of_steady (Exec.steady_fail _) rfl
  | returnValue value line =>
    exact hstays (hE.returns (fun e h => he e (by simpa [Stmt.exprs] using h)) hm)
  | setMember target member op value line =>
    have htarget := he target (by simp [Stmt.exprs])
    refine hstays (Stays.bind (hE.place htarget hm) (hE.toRespects.place htarget hm)
      fun p m₁ h₁ _ => ?_)
    exact (hE.assignFrom _ op (he value (by simp [Stmt.exprs])) h₁.inv).steady fun _ =>
      Exec.steady_pure _
  | setIndex target index op value line =>
    have htarget := he target (by simp [Stmt.exprs])
    have hindex := he index (by simp [Stmt.exprs])
    refine hstays (Stays.bind (hE.place htarget hm) (hE.toRespects.place htarget hm)
      fun p m₁ h₁ _ => ?_)
    refine Stays.bind (hE.value hindex h₁.inv) (hE.toRespects.value hindex h₁.inv)
      fun v m₂ h₂ _ => ?_
    exact (hE.assignFrom _ op (he value (by simp [Stmt.exprs])) h₂.inv).steady fun _ =>
      Exec.steady_pure _
  | nop line => exact hhere

end Situates

/-! ## Runs -/

/-- Every evaluator situates what it does. -/
theorem situates_evaluator (L : Law) : ∀ n, L.Situates (evaluator n)
  | 0 => ⟨respects_evaluator L 0, fun _ _ => trivial, fun _ _ => trivial⟩
  | n + 1 =>
    have ih := situates_evaluator L n
    ⟨respects_evaluator L (n + 1),
      fun hs hm => stands_stmt hs hm fun _ hm' hline => ih.dispatch hs n hm' hline,
      fun he hm => ih.expression he hm⟩

/-- An error that ends a run has a site with an entry for the frame of the run. -/
theorem placed_of_runStatements {fuel : Nat} {body : List Stmt}
    (hb : ∀ s ∈ body, s.Within L.Source L.Code) (hm : L.Inv m) {e : RuntimeError} {m' : Machine}
    (h : runStatements fuel body m = .error e m') : L.Placed m e := by
  induction body generalizing m with
  | nil => cases h
  | cons s r ih =>
    have hs := hb s List.mem_cons_self
    have hstands := (situates_evaluator L fuel).stands hs hm
    have hafter := (respects_evaluator L fuel).stmt hs hm
    rw [runStatements, Exec.bind_apply] at h
    cases hr : (evaluator fuel).stmt s m with
    | ok flow m₁ =>
      rw [hr] at h hafter
      have hplaced := ih (fun t ht => hb t (List.mem_cons_of_mem _ ht)) hafter.1.inv h
      exact hplaced.of_confined hafter.1.confined
    | error e₁ m₁ =>
      rw [hr] at h hstands
      cases h
      exact hstands.resolve_right fun h => h.1
    | outOfFuel =>
      rw [hr] at h
      cases h

end Law

end HeapScript
