import HeapScript.Proofs.Law.Statement
import HeapScript.Proofs.Machine.Results
import HeapScript.Proofs.Machine.Sound

/-!
# Evaluation stores sound values

* `soundness` is the law: the machine stays sound, the heap does not shrink, what is
  stored may be stored, and no expression lacks an operand.
-/

namespace HeapScript

namespace Machine

variable {m : Machine} {object data v : Value}

/-- A member of stored data may be stored, also with the receiver that a function
gets on the way. -/
theorem Sound.member {origin : Option Nat} {name : String}
    (ho : m.resolveWithOrigin object = .ok (data, origin)) (hd : data.Kept m.heap.capacity)
    (h : m.member object (.ident name) = .ok v) : v.Kept m.heap.capacity := by
  obtain ⟨part, ty, holdsRef, he, hv⟩ := member_eq_ok ho h
  have hpart := hd.part (Value.enter_mem_parts he)
  rcases hv with rfl | ⟨f, rfl, rfl⟩
  · exact hpart
  · refine Value.kept_function (fun receiver hr => ?_) hpart.self.2
    cases origin with
    | none => exact hpart.self.1 receiver hr
    | some last =>
      cases hr
      exact Heap.lt_capacity_of_isUsed (Heap.isUsed_of_deref (deref_of_origin ho))

/-- What a function returns may be stored once it is held to the declared type. -/
theorem Sound.returned {d : FunctionDef} {name : String} {w : Value}
    (hv : v.Kept m.heap.capacity) (h : m.checkReturn d name v = .ok w) :
    w.Kept m.heap.capacity := by
  rcases checkReturn_eq_ok h with rfl | h
  · exact hv
  · exact (Sound.conform hv h).1

end Machine

theorem kept_of_arrayOf {capacity : Nat} {items : List Value} {v : Value}
    (hi : ∀ x ∈ items, x.Kept capacity ∧ ¬x.IsRef) (h : arrayOf items = .ok v) :
    v.Kept capacity ∧ ¬v.IsRef := by
  obtain ⟨tag, rfl⟩ := eq_array_of_arrayOf h
  exact ⟨Value.kept_array (fun x hx => (hi x hx).1) fun x hx => (hi x hx).2, nofun⟩

theorem forall_of_forall₂ {α β : Type} {P : β → Prop} {as : List α} {bs : List β}
    (h : List.Forall₂ (fun _ b => P b) as bs) : ∀ b ∈ bs, P b := by
  induction h with
  | nil => simp
  | cons hb _ ih => simpa using ⟨hb, ih⟩

/-- The law that stored values are sound and that no operand is missing. -/
def soundness : Law where
  Source := Expr.IsLowered
  Code _ := True
  Declares _ _ := True
  Inv := Machine.Sound
  Later m m' := m.heap.capacity ≤ m'.heap.capacity
  Err _ e := e.fault ≠ .missingOperand
  Stored m v := v.Kept m.heap.capacity
  Data m v := v.Kept m.heap.capacity ∧ ¬v.IsRef
  Fits m _ _ v := v.Kept m.heap.capacity
  later_refl _ := Nat.le_refl _
  later_trans := Nat.le_trans
  err_of_later _ _ h := h
  stored_later hl hv := hv.mono hl
  data_later hl hv := ⟨hv.1.mono hl, hv.2⟩
  fits_later hl hv := hv.mono hl
  stored_of_data hv := hv.1
  declares_of_decl _ := trivial
  declares_of_param _ _ := trivial
  declares_of_member _ _ := trivial
  fault hf := hf
  missing he hs := by
    rw [he.suffices?] at hs
    cases hs
  located _ _ _ _ h := h
  lookup hm h := hm.lookup h
  deref hm hv h := hm.resolve hv (mapError_eq_ok.1 h)
  num _ _ := ⟨Value.kept_of_isScalar trivial, nofun⟩
  str _ _ := ⟨Value.kept_of_isScalar trivial, nofun⟩
  bool _ _ := ⟨Value.kept_of_isScalar trivial, nofun⟩
  void _ := ⟨Value.kept_of_isScalar trivial, nofun⟩
  function _ _ _ _ _ hb := ⟨Value.kept_function nofun hb.exprs, nofun⟩
  array _ _ _ hi h := kept_of_arrayOf hi h
  binary ha hb h :=
    have hmade := Value.binary_eq_ok h
    ⟨hmade.kept ha.1 hb.1 ha.2 hb.2, hmade.not_isRef⟩
  unary _ h :=
    have hscalar := Value.unary_eq_ok h
    ⟨Value.kept_of_isScalar hscalar, hscalar.not_isRef⟩
  member _ ho hd h := Machine.Sound.member ho hd.1 h
  element hd h := hd.1.part (Value.enter_mem_parts h)
  object _ h := ⟨Value.kept_object h.length_eq.symm (forall_of_forall₂ h), nofun⟩
  reference _ _ hv h := (Machine.expectReference_eq_ok h).1 ▸ hv
  conform _ _ hv h := (Machine.Sound.conform hv.1 h).1
  default _ ty _ := Value.kept_default ty
  classDef _ c _ _ := Value.kept_classDef c
  returned _ _ hv h := Machine.Sound.returned hv h
  touch {m g} hm hg := by
    refine ⟨hm.modifyFrame fun v hv => .inl ?_, Nat.le_refl _, fun _ h => h⟩
    obtain ⟨hvars, hreturn, -⟩ := hg m.frames.current
    rwa [Frame.roots, hvars, hreturn] at hv
  pending hm hv := by
    refine ⟨hm.modifyFrame fun w hw => ?_, Nat.le_refl _⟩
    rcases Frame.mem_roots_returnValue hw with rfl | hw
    · exact .inr hv
    · exact .inl hw
  declare name x hm hx := ⟨hm.declare name hx, Nat.le_refl _⟩
  allocate {m flags ty name init line v} hm _ _ hv _ := by
    have hlt := Heap.allocate_lt_capacity hm.heap v
    have hm' := (hm.allocate hv).declare name
      (x := { ty, value := .ref (m.heap.allocate v).1, isConst := flags.isConst })
      (Value.kept_ref hlt)
    refine ⟨hm'.noteAllocation, ?_⟩
    rw [Machine.capacity_noteAllocation hm']
    exact Heap.capacity_le_allocate m.heap v
  assign hm hv hp _ hl hw h := by
    obtain ⟨hkept, href⟩ := hm.assignedValue hv hw
    have hplace : _ → Value.HoldsRefs _ := fun hr =>
      hp.elim (fun hd => absurd (href hr) hd.2) fun ⟨_, _, hp⟩ =>
        Machine.locate_holdsRefs hl hp.endsInMember
    obtain ⟨hm', hc⟩ := hm.writePlace hkept hplace h
    exact ⟨hm', Nat.le_of_eq hc.symm, hkept.mono (Nat.le_of_eq hc.symm)⟩
  native hm hf _ ha _ h := by
    obtain ⟨hm', hc, hr, ht⟩ := hm.native hf ha h
    refine ⟨hm', Nat.le_of_eq hc.symm, fun v hv => (hr v hv).mono (Nat.le_of_eq hc.symm), ?_⟩
    exact fun e he => ht.fault_ne he
  body hf := hf.1.self.2.within
  enter invokedAs name values hm hf hv := hm.enter invokedAs name hf.1 (forall_of_forall₂ hv)
  leave {m m' f} _ _ hm' hl := by
    refine ⟨hm'.leave, hl, fun v hv => hm'.frames v ?_⟩
    exact CallStack.mem_roots_of_current (Frame.mem_roots.2 (.inr hv))
  err_of_enter _ h := h

end HeapScript
