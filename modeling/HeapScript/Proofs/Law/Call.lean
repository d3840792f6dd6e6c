import HeapScript.Proofs.Law.Basic

/-!
# Calls keep a law

What an evaluator that keeps a law gives for the value of an expression, for the
slots of a call, and for the call operator with all that it can call.

* `Law.Respects`: the evaluator keeps the law.
* `after_inFrame`: a computation in a frame of its own.
* `Respects.call`: the call operator.
-/

namespace HeapScript

/-- The origin aside, the data behind an operand is what it resolves to. -/
theorem Machine.resolve_of_resolveWithOrigin {m : Machine} {v data : Value} {origin : Option Nat}
    (h : m.resolveWithOrigin v = .ok (data, origin)) : m.resolve v = .ok data := by
  obtain ⟨w, hw, h⟩ := bind_eq_ok.1 h
  refine bind_eq_ok.2 ⟨w, hw, ?_⟩
  cases w with
  | ref index =>
    obtain ⟨last, hl, h⟩ := bind_eq_ok.1 h
    obtain ⟨x, hx, h⟩ := bind_eq_ok.1 h
    cases pure_eq_ok.1 h
    rw [mapError_eq_ok] at hl hx
    simp [Machine.deref, Heap.resolve, hl, hx]
  | _ =>
    cases h
    rfl

namespace Law

variable {L : Law} {m : Machine}

/-- The evaluator keeps the law. -/
structure Respects (L : Law) (E : Evaluator Expr) : Prop where
  stmt {s : Stmt} {m : Machine} : s.Within L.Source L.Code → L.Inv m →
    L.After m (fun _ _ => True) (E.stmt s m)
  expr {e : Expr} {m : Machine} : e.Within L.Source L.Code → L.Inv m →
    L.After m (fun v m' => L.Operand m' v) (E.expr e m)

/-! ## Operands -/

theorem stored_of_operand {v w : Value} (hm : L.Inv m) (hv : L.Operand m v)
    (h : m.stored v = .ok w) : L.Stored m w := by
  cases v with
  | ident name => exact L.lookup hm h
  | _ =>
    obtain ⟨_, ⟨⟩⟩ | hv := hv
    cases h
    exact hv

theorem data_of_operand {v w : Value} (hm : L.Inv m) (hv : L.Operand m v)
    (h : m.resolve v = .ok w) : L.Data m w := by
  obtain ⟨x, hx, hw⟩ := bind_eq_ok.1 h
  exact L.deref hm (stored_of_operand hm hv hx) hw

theorem member_of_operand {object name v : Value} (hm : L.Inv m) (ho : L.Operand m object)
    (h : m.member object name = .ok v) : L.Stored m v := by
  cases name with
  | ident name =>
    obtain ⟨⟨data, origin⟩, hd, -⟩ := bind_eq_ok.1 h
    exact L.member hm hd (data_of_operand hm ho (Machine.resolve_of_resolveWithOrigin hd)) h
  | _ => cases h

theorem element_of_operand {target index v : Value} (hm : L.Inv m) (ht : L.Operand m target)
    (h : m.element target index = .ok v) : L.Stored m v := by
  obtain ⟨data, hd, h⟩ := bind_eq_ok.1 h
  obtain ⟨⟨x, ty, holdsRef⟩, he, h⟩ := bind_eq_ok.1 h
  rw [← pure_eq_ok.1 h]
  exact L.element (data_of_operand hm ht hd) he

section Level

variable {E : Evaluator Expr} (hE : L.Respects E)

include hE

/-! ## Values of expressions -/

theorem Respects.value {e : Expr} (he : e.Within L.Source L.Code) (hm : L.Inv m) :
    L.After m (fun v m' => L.Data m' v) (E.value e m) := by
  refine after_bind (hE.expr he hm) fun v m' hn hv => ?_
  exact after_check hn.inv (tame_resolve m' v) fun w hw => data_of_operand hn.inv hv hw

theorem Respects.hinted {e : Expr} (byRef : Bool) (he : e.Within L.Source L.Code) (hm : L.Inv m) :
    L.After m (fun v m' => L.Stored m' v ∧ (byRef = false → L.Data m' v)) (E.hinted byRef e m) := by
  cases byRef with
  | false => exact (hE.value he hm).mono fun v m' _ hv => ⟨L.stored_of_data hv, fun _ => hv⟩
  | true =>
    refine after_bind (hE.expr he hm) fun v m' hn hv => ?_
    refine after_check hn.inv (tame_stored m' v) fun w hw => ⟨?_, fun h => nomatch h⟩
    exact stored_of_operand hn.inv hv hw

theorem Respects.condition {e : Expr} (he : e.Within L.Source L.Code) (hm : L.Inv m) :
    L.After m (fun _ _ => True) (E.condition e m) := by
  refine after_bind (hE.value he hm) fun v m' hn _ => ?_
  cases v with
  | bool b => exact after_pure hn.inv trivial
  | _ => exact after_fail hn.inv (by simp)

/-! ## Calls -/

/-- Values for slots, one argument to each. -/
theorem Respects.slotValues (use : String → RefUse) {ps : List Param} {args : List Expr}
    (hps : ∀ p ∈ ps, L.Declares p.isRef p.ty) (hlen : args.length = ps.length)
    (ha : ∀ a ∈ args, a.Within L.Source L.Code) (hm : L.Inv m) :
    L.After m (fun vs m' => List.Forall₂ (fun p v => L.Fits m' p.isRef p.ty v) ps vs)
      (E.slotValues use ps args m) := by
  induction ps generalizing args m with
  | nil => exact after_pure hm .nil
  | cons p ps ih =>
    obtain _ | ⟨a, args⟩ := args
    · cases hlen
    refine after_bind (hE.hinted p.isRef (ha a List.mem_cons_self) hm) fun v m₁ h₁ hv => ?_
    have hslot : ∀ w, m₁.checkSlot use p v = .ok w → L.Fits m₁ p.isRef p.ty w := by
      intro w hw
      rw [Machine.checkSlot] at hw
      have hp := hps p List.mem_cons_self
      cases hr : p.isRef with
      | true => exact L.reference h₁.inv (hr ▸ hp) hv.1 (by simpa [hr] using hw)
      | false => exact L.conform h₁.inv (hr ▸ hp) (hv.2 hr) (by simpa [hr] using hw)
    refine after_bind (Q := fun w m' => L.Fits m' p.isRef p.ty w)
      (after_check h₁.inv (tame_checkSlot m₁ use p v) hslot) fun w m₂ h₂ hw => ?_
    refine after_bind (ih (fun p h => hps p (List.mem_cons_of_mem _ h)) (Nat.succ.inj hlen)
      (fun a h => ha a (List.mem_cons_of_mem _ h)) h₂.inv) fun ws m₃ h₃ hws => ?_
    exact after_pure h₃.inv (.cons (L.fits_later h₃.later hw) hws)

theorem Respects.callNative {f : Native} {args : List Expr} (hf : f ∈ m.natives)
    (hname : L.Calls m f.name) (ha : ∀ a ∈ args, a.Within L.Source L.Code) (hm : L.Inv m) :
    L.After m (fun v m' => L.Stored m' v) (E.callNative f args m) := by
  refine after_bind (after_check (Q := fun _ _ => True) hm (tame_checkArity f _) fun _ _ => trivial)
    fun _ m₁ h₁ _ => ?_
  refine after_bind (after_each (P := fun m' v => L.Stored m' v ∧ (f.takesRefs = false → L.Data m' v))
    (fun hn hv => ⟨L.stored_later hn.later hv.1, fun h => L.data_later hn.later (hv.2 h)⟩) h₁.inv
    fun a h m hm => hE.hinted f.takesRefs (ha a h) hm) fun vs m₂ h₂ hvs => ?_
  have hmem : f ∈ m₂.natives := by
    rw [h₂.confined.natives, h₁.confined.natives]
    exact hf
  rcases hr : f.run m₂.frames vs m₂.toWorld with ⟨r, w⟩
  obtain ⟨hinv, hlater, hok, herr⟩ := L.native h₂.inv hmem (hname.next (h₁.trans h₂))
    (fun v hv => (hvs.2 v hv).1)
    (fun h v hv => (hvs.2 v hv).2 h) hr
  have hn : L.Next m₂ { m₂ with toWorld := w } := ⟨.ofWorld m₂ w, hinv, hlater⟩
  cases r with
  | ok v => exact ⟨hn, hok v rfl⟩
  | error e => exact ⟨hn, herr e rfl⟩

omit hE in
/-- A computation in a frame of its own. -/
theorem after_inFrame {α : Type} {Q : α → Machine → Prop} {x : Exec α} {f : Frame} (hm : L.Inv m)
    (hdepth : m.frames.depth < m.config.maxCallDepth)
    (hx : L.After (m.enter f) Q (x (m.enter f))) :
    L.After m (fun r m' => ∀ v, r.2 = some v → L.Stored m' v) (Exec.inFrame f x m) := by
  have hleave : ∀ m', L.Next (m.enter f) m' → L.Next m m'.leave := by
    intro m' hn
    obtain ⟨hinv, hlater, -⟩ := L.leave hm hn.confined hn.inv hn.later
    have hc := hn.confined
    have hpop : m'.leave.frames = m.frames := hc.frames.pop_eq
    exact ⟨⟨hpop ▸ .refl _, hc.config, hc.natives, hc.sourceName⟩, hinv, hlater⟩
  cases hr : x (m.enter f) with
  | ok a m' =>
    rw [hr] at hx
    rw [Exec.inFrame_ok hr]
    refine ⟨hleave m' hx.1, fun v hv => ?_⟩
    exact (L.leave hm hx.1.confined hx.1.inv hx.1.later).2.2 v hv
  | error e m' =>
    rw [hr] at hx
    rw [Exec.inFrame_error hr]
    exact ⟨hleave m' hx.1, L.err_of_enter hdepth hx.2⟩
  | outOfFuel =>
    rw [Exec.inFrame_outOfFuel hr]
    trivial

theorem Respects.runBody {f : Frame} {body : Stmt} (hb : body.Within L.Source L.Code) (hm : L.Inv m)
    (hdepth : m.frames.depth < m.config.maxCallDepth) (hf : L.Inv (m.enter f)) :
    L.After m (fun v m' => L.Stored m' v) (E.runBody f body m) := by
  refine after_bind (after_inFrame hm hdepth (hE.stmt hb hf)) fun r m' hn hr => ?_
  obtain ⟨flow, value⟩ := r
  have hvoid : L.Stored m' .void := L.stored_of_data (L.void m')
  cases flow with
  | returnValue =>
    refine after_pure hn.inv ?_
    cases value with
    | none => exact hvoid
    | some v => exact hr v rfl
  | _ => exact after_pure hn.inv hvoid

theorem Respects.callFunction {f : FunctionValue} (invokedAs : Option String) {args : List Expr}
    (hf : L.Data m (.function f)) (ha : ∀ a ∈ args, a.Within L.Source L.Code) (hm : L.Inv m) :
    L.After m (fun v m' => L.Stored m' v) (E.callFunction f invokedAs args m) := by
  rw [Evaluator.callFunction]
  split
  · exact after_fail hm (by simp)
  rename_i hlen
  refine after_bind (Q := fun n m' => n = m'.config.maxCallDepth) (after_read hm rfl)
    fun limit m₁ h₁ hlimit => ?_
  refine after_bind (Q := fun n m' => n = m'.frames.depth) (after_read h₁.inv rfl)
    fun depth m₂ h₂ hdepth => ?_
  rw [← h₂.confined.config] at hlimit
  split
  · exact after_fail h₂.inv (by simp)
  rename_i hlt
  have hf₂ := L.data_later (h₁.trans h₂).later hf
  refine after_bind (hE.slotValues .parameter (fun p hp => L.declares_of_param hf₂ hp)
    (Classical.not_not.1 hlen) ha h₂.inv)
    fun values m₃ h₃ hvalues => ?_
  refine after_bind (Q := fun c m' => c = m'.frames.current ∧
      List.Forall₂ (fun p v => L.Fits m' p.isRef p.ty v) f.definition.params values)
    (after_read h₃.inv ⟨rfl, hvalues⟩) fun caller m₄ h₄ hcaller => ?_
  obtain ⟨rfl, hvalues⟩ := hcaller
  have h₂₄ := h₃.trans h₄
  have hroom : m₄.frames.depth < m₄.config.maxCallDepth := by
    rw [h₂₄.confined.frames.depth_eq, h₂₄.confined.config]
    omega
  have hf₄ := L.data_later h₂₄.later hf₂
  refine after_bind (hE.runBody (L.body hf₄) h₄.inv hroom (L.enter invokedAs _ h₄.inv hf₄ hvalues))
    fun v m₅ h₅ hv => ?_
  exact after_check h₅.inv (by simp) fun w hw =>
    L.returned h₅.inv (L.data_later h₅.later hf₄) hv hw

theorem Respects.construct {c : ClassDef} {args : List Expr} (hc : L.Data m (.classDef c))
    (ha : ∀ a ∈ args, a.Within L.Source L.Code) (hm : L.Inv m) :
    L.After m (fun v m' => L.Stored m' v) (E.construct c args m) := by
  rw [Evaluator.construct]
  split
  · exact after_fail hm (by simp)
  rename_i hlen
  refine after_bind (hE.slotValues .member (fun p hp => L.declares_of_member hc hp)
    (Classical.not_not.1 hlen) ha hm) fun vs m' hn hvs => ?_
  exact after_pure hn.inv (L.stored_of_data (L.object (L.data_later hn.later hc) hvs))

theorem Respects.fill (template : String) {args : List Expr}
    (ha : ∀ a ∈ args, a.Within L.Source L.Code) (hm : L.Inv m) :
    L.After m (fun v m' => L.Stored m' v) (E.fill template args m) := by
  refine after_bind (after_each (P := fun _ _ => True) (fun _ _ => trivial) hm fun a h m hm => ?_)
    fun shown m₁ h₁ _ => ?_
  · exact after_bind (hE.value (ha a h) hm) fun v m' hn _ => after_read hn.inv trivial
  refine after_bind (Q := fun _ _ => True)
    (after_check h₁.inv (by simp) fun _ _ => trivial) fun text m₂ h₂ _ => ?_
  exact after_pure h₂.inv (L.stored_of_data (L.str m₂ _))

theorem Respects.call {callee : Value} {args : List Expr} (hc : L.Operand m callee)
    (hname : ∀ name, callee = .ident name → L.Calls m name)
    (ha : ∀ a ∈ args, a.Within L.Source L.Code) (hm : L.Inv m) :
    L.After m (fun v m' => L.Stored m' v) (E.call callee args m) := by
  refine after_bind
    (Q := fun r m' => L.Operand m' callee ∧ ∀ f, r = some f → f ∈ m'.natives ∧ L.Calls m' f.name)
    (after_read hm ⟨hc, fun f hf => ?_⟩) fun r m₁ h₁ hr => ?_
  · rw [Evaluator.native?.eq_def] at hf
    split at hf
    · rename_i name
      split at hf
      · cases hf
      · have hsame := List.find?_some hf
        rw [beq_iff_eq] at hsame
        exact ⟨List.mem_of_find?_eq_some hf, hsame ▸ hname name rfl⟩
    · cases hf
  cases r with
  | some f => exact hE.callNative (hr.2 f rfl).1 (hr.2 f rfl).2 ha h₁.inv
  | none =>
    refine after_bind (Q := fun v m' => L.Data m' v) (after_check h₁.inv (by simp) fun v hv => ?_)
      fun v m₂ h₂ hv => ?_
    · exact data_of_operand h₁.inv hr.1 hv
    cases v with
    | function f => exact hE.callFunction _ hv ha h₂.inv
    | classDef c => exact hE.construct hv ha h₂.inv
    | str template => exact hE.fill template ha h₂.inv
    | _ => exact after_fail h₂.inv (by simp)

end Level

end Law

end HeapScript
