import HeapScript.Proofs.Law.Call

/-!
# Expressions keep a law

* `after_assign`: storing a value in a place.
* `Respects.instr`: one instruction puts one value in the place of its operands.
  If they may be missing, the law has to admit the fault.
* `Respects.expression`: a whole expression.
-/

namespace HeapScript

namespace Law

variable {L : Law} {m : Machine} {E : Evaluator Expr} (hE : L.Respects E)

theorem after_assign {p : Place} (op : AssignOp) {v : Value} (hm : L.Inv m) (hv : L.Stored m v)
    (hr : L.Data m v ∨ ∃ m₀, L.Inv m₀ ∧ m₀.LeadsToRef p)
    (hp : p.path ≠ [] ∨ ∃ name, p = .var name ∧
      ((∃ e, L.Source e ∧ e.Assigns name) ∨ L.Stored m (.ident name))) :
    L.After m (fun w m' => L.Stored m' w) (Exec.assign p op v m) := by
  rw [Exec.assign]
  cases ho : (do
    let slot ← m.locate p
    let w ← m.assignedValue slot op v
    let m' ← m.writePlace slot.place w
    return (w, m') : Except Fault (Value × Machine)) with
  | ok r =>
    simp only [bind_eq_ok, pure_eq_ok] at ho
    obtain ⟨slot, hslot, w, hw, m', hm', rfl⟩ := ho
    obtain ⟨hinv, hlater, hstored⟩ := L.assign hm hv hr hp hslot hw hm'
    exact ⟨⟨.writePlace hm', hinv, hlater⟩, hstored⟩
  | error f =>
    refine ⟨.refl hm, L.fault (Tame.fault_ne ?_ ho)⟩
    refine tame_bind (by simp) fun slot => tame_bind (by simp) fun w => ?_
    exact tame_bind (by simp) fun _ => tame_pure _

/-- The operands on the stack of an expression: its names and stored values. -/
abbrev Operands (L : Law) (e : Expr) (m : Machine) (stack : List Value) : Prop :=
  ∀ v ∈ stack, (∃ name, v = .ident name ∧ .ident name ∈ e.flatten) ∨ L.Stored m v

section Stack

variable {e : Expr} {v : Value} {stack rest : List Value}

theorem Operands.operand (hs : L.Operands e m stack) (hv : v ∈ stack) : L.Operand m v :=
  (hs v hv).imp_left fun ⟨name, h, _⟩ => ⟨name, h⟩

theorem Operands.push {m' : Machine} (hn : L.Next m m') (hr : L.Operands e m rest)
    (hv : L.Stored m' v) : L.Operands e m' (v :: rest) := by
  intro w hw
  rcases List.mem_cons.1 hw with rfl | hw
  · exact .inr hv
  · exact (hr w hw).imp_right (L.stored_later hn.later)

end Stack

include hE

/-- One instruction puts one value in the place of its operands. -/
theorem Respects.instr {e : Expr} (he : e.Within L.Source L.Code) {i : Instr} (hi : i ∈ e.flatten)
    {stack : List Value} (hs : L.Operands e m stack) (hm : L.Inv m)
    (hk : i.operands ≤ stack.length ∨ L.Err m { fault := .missingOperand }) :
    L.After m
      (fun stack' m' => stack'.length = stack.length - i.operands + 1 ∧ L.Operands e m' stack')
      (E.instr i stack m) := by
  have hdata : ∀ v, L.Data m v → L.Operands e m (v :: stack) := fun v hv =>
    Operands.push (.refl hm) hs (L.stored_of_data hv)
  have hfail : ∀ {Q : List Value → Machine → Prop}, ¬ i.operands ≤ stack.length →
      L.After m Q ((Exec.fail .missingOperand : Exec (List Value)) m) := fun hlt =>
    ⟨.refl hm, hk.resolve_left hlt⟩
  cases i with
  | num n => exact after_pure hm ⟨rfl, hdata _ (L.num m n)⟩
  | str s => exact after_pure hm ⟨rfl, hdata _ (L.str m s)⟩
  | bool b => exact after_pure hm ⟨rfl, hdata _ (L.bool m b)⟩
  | ident name =>
    refine after_pure hm ⟨rfl, fun w hw => ?_⟩
    rcases List.mem_cons.1 hw with rfl | hw
    · exact .inl ⟨name, rfl, hi⟩
    · exact hs w hw
  | function d => exact after_pure hm ⟨rfl, hdata _ (L.function m he.self hi (he.body hi))⟩
  | array elements =>
    refine after_bind (after_each (P := fun m' v => L.Data m' v)
      (fun hn hv => L.data_later hn.later hv) hm fun a h m hm => hE.value (he.attached hi h) hm)
      fun items m₁ h₁ hitems => ?_
    refine after_bind (Q := fun v m' => L.Data m' v) (after_check h₁.inv (by simp) fun v hv => ?_)
      fun v m₂ h₂ hv => ?_
    · exact L.array he.self hi hitems.1 hitems.2 hv
    · exact after_pure h₂.inv ⟨rfl, Operands.push (h₁.trans h₂) hs (L.stored_of_data hv)⟩
  | binary op =>
    match stack with
    | right :: left :: rest =>
      refine after_bind (Q := fun v m' => L.Data m' v) (after_check hm ?_ fun v hv => ?_)
        fun v m₁ h₁ hv => ?_
      · exact tame_bind (by simp) fun _ => tame_bind (by simp) fun _ => by simp
      · obtain ⟨a, ha, hv⟩ := bind_eq_ok.1 hv
        obtain ⟨b, hb, hv⟩ := bind_eq_ok.1 hv
        exact L.binary (data_of_operand hm (hs.operand (v := left) (by simp)) ha)
          (data_of_operand hm (hs.operand (v := right) (by simp)) hb) hv
      · refine after_pure h₁.inv ⟨rfl, Operands.push h₁ (fun w hw => hs w ?_) (L.stored_of_data hv)⟩
        simp [hw]
    | [] | [_] => exact hfail (by simp [Instr.operands])
  | unary op =>
    match stack with
    | operand :: rest =>
      refine after_bind (Q := fun v m' => L.Data m' v) (after_check hm ?_ fun v hv => ?_)
        fun v m₁ h₁ hv => ?_
      · exact tame_bind (by simp) fun _ => by simp
      · obtain ⟨a, ha, hv⟩ := bind_eq_ok.1 hv
        exact L.unary (data_of_operand hm (hs.operand (v := operand) (by simp)) ha) hv
      · refine after_pure h₁.inv ⟨rfl, Operands.push h₁ (fun w hw => hs w ?_) (L.stored_of_data hv)⟩
        simp [hw]
    | [] => exact hfail (by simp [Instr.operands])
  | assign op =>
    match stack with
    | value :: target :: rest =>
      cases target with
      | ident name =>
        refine after_bind (Q := fun v m' => L.Data m' v) (after_check hm (by simp) fun v hv => ?_)
          fun v m₁ h₁ hv => ?_
        · exact data_of_operand hm (hs.operand (v := value) (by simp)) hv
        have hname : (∃ e, L.Source e ∧ e.Assigns name) ∨ L.Stored m₁ (.ident name) := by
          rcases hs (.ident name) (by simp) with ⟨_, ⟨⟩, hmem⟩ | hstored
          · exact .inl ⟨e, he.self, hmem, op, hi⟩
          · exact .inr (L.stored_later h₁.later hstored)
        refine after_bind (after_assign op h₁.inv (L.stored_of_data hv) (.inl hv)
          (.inr ⟨name, rfl, hname⟩)) fun w m₂ h₂ hw => ?_
        refine after_pure h₂.inv ⟨rfl, Operands.push (h₁.trans h₂) (fun x hx => hs x ?_) hw⟩
        simp [hx]
      | _ => exact after_fail hm (by simp)
    | [] | [_] => exact hfail (by simp [Instr.operands])
  | member =>
    match stack with
    | name :: object :: rest =>
      refine after_bind (Q := fun v m' => L.Stored m' v) (after_check hm (by simp) fun v hv => ?_)
        fun v m₁ h₁ hv => ?_
      · exact member_of_operand hm (hs.operand (v := object) (by simp)) hv
      · refine after_pure h₁.inv ⟨rfl, Operands.push h₁ (fun w hw => hs w ?_) hv⟩
        simp [hw]
    | [] | [_] => exact hfail (by simp [Instr.operands])
  | call args =>
    match stack with
    | callee :: rest =>
      have hname : ∀ name, callee = .ident name → L.Calls m name := by
        rintro name rfl
        rcases hs (.ident name) (by simp) with ⟨_, ⟨⟩, hmem⟩ | hstored
        · exact .inl ⟨e, he.self, hmem, args, hi⟩
        · exact .inr hstored
      refine after_bind (hE.call (hs.operand (v := callee) (by simp)) hname
        (fun a h => he.attached hi (List.mem_of_mem_filter h)) hm)
        fun v m₁ h₁ hv => ?_
      refine after_pure h₁.inv ⟨rfl, Operands.push h₁ (fun w hw => hs w ?_) hv⟩
      simp [hw]
    | [] => exact hfail (by simp [Instr.operands])
  | index idx =>
    match stack with
    | target :: rest =>
      refine after_bind (hE.value (he.attached hi (by simp [Instr.exprs])) hm)
        fun index m₁ h₁ _ => ?_
      have ht : L.Operand m₁ target := (hs.operand (v := target) (by simp)).next h₁
      refine after_bind (Q := fun v m' => L.Stored m' v)
        (after_check h₁.inv (by simp) fun v hv => ?_)
        fun v m₂ h₂ hv => ?_
      · exact element_of_operand h₁.inv ht hv
      · refine after_pure h₂.inv ⟨rfl, Operands.push (h₁.trans h₂) (fun w hw => hs w ?_) hv⟩
        simp [hw]
    | [] => exact hfail (by simp [Instr.operands])

/-- A sequence of instructions that has enough operands, or may lack some. -/
theorem Respects.instrs {e : Expr} (he : e.Within L.Source L.Code) {is : List Instr}
    (hi : ∀ i ∈ is, i ∈ e.flatten) {stack : List Value} (hs : L.Operands e m stack) (hm : L.Inv m)
    (hk : suffices? stack.length is = true ∨ ∀ m, L.Err m { fault := .missingOperand }) :
    L.After m (fun stack' m' => L.Operands e m' stack') (E.instrs is stack m) := by
  induction is generalizing stack m with
  | nil => exact after_pure hm hs
  | cons i is ih =>
    rw [suffices?, Bool.and_eq_true, decide_eq_true_eq] at hk
    refine after_bind (hE.instr he (hi i List.mem_cons_self) hs hm
      (hk.imp And.left fun h => h m)) fun stack' m' hn hs' => ?_
    refine ih (fun j hj => hi j (List.mem_cons_of_mem _ hj)) hs'.2 hn.inv ?_
    rw [hs'.1]
    exact hk.imp_left And.right

theorem Respects.expression {e : Expr} (he : e.Within L.Source L.Code) (hm : L.Inv m) :
    L.After m (fun v m' => L.Operand m' v) (E.expression e m) := by
  have hk : suffices? 0 e.flatten = true ∨ ∀ m, L.Err m { fault := .missingOperand } := by
    cases h : suffices? 0 e.flatten with
    | true => exact .inl rfl
    | false => exact .inr fun m => L.missing he.self h
  refine after_bind (hE.instrs he (fun _ h => h) (fun _ h => by cases h) hm hk)
    fun stack m' hn hs => ?_
  refine after_pure hn.inv ?_
  cases stack with
  | nil => exact .of_data (L.void m')
  | cons v rest => exact hs.operand List.mem_cons_self

end Law

end HeapScript
