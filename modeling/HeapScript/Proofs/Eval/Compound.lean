import HeapScript.Proofs.Eval.Paths
import HeapScript.Proofs.Program.Printing

/-!
# Compound assignment

`x op= e` looks at `x` in the assignment, after the value has been resolved; in
`x = x op (e)` it is a placeholder below the value of `e` until the operator resolves both.

* `resolve_ident_iff`: both find the same old value, whether the variable holds data or a
  reference to it.
* `assign_compound`: a compound assignment assigns what its operator makes of the two.
* `compound_assignment`: so the two expressions come to the same value and leave the same
  machine, whatever `e` does to it on the way.
-/

namespace HeapScript

/-! ## Values that stand for themselves -/

namespace Machine

variable {m m' : Machine} {op : AssignOp} {b : BinaryOp} {name : String} {slot : Slot}
  {v w a : Value}

theorem resolve_of_kept (hv : v.Kept m.heap.capacity) (hr : ¬v.IsRef) : m.resolve v = .ok v := by
  rw [resolve, stored_of_kept hv]
  exact deref_of_not_isRef hr

/-- Where an assignment to a variable finds a slot, the old value in it is what the name
stands for. -/
theorem resolve_ident_iff (hm : m.Sound) (hslot : m.locate (.var name) = .ok slot) :
    m.resolve (.ident name) = .ok a ↔
      ∃ old, m.readPlace slot.place = .ok old ∧ m.resolve old = .ok a := by
  obtain ⟨⟨value, ty⟩, hroot, -⟩ := bind_eq_ok.1 hslot
  obtain ⟨x, hx, -⟩ := bind_eq_ok.1 hroot
  obtain ⟨hget, hconst⟩ := writableVariable_eq_ok hx
  have hsame := matches_chain hm hget hconst []
  have hplace : (m.locate { root := .var name, path := [] } >>= fun slot =>
      m.readPlace slot.place >>= m.deref) = m.readPlace slot.place >>= m.deref := by
    show m.locate (.var name) >>= _ = _
    rw [hslot]
    rfl
  rw [hplace] at hsame
  -- what is stored is no placeholder, so resolving it is following references
  have hderef (old : Value) (hold : m.readPlace slot.place = .ok old) :
      m.resolve old = m.deref old := by
    rw [resolve, stored_of_kept (hm.readPlace hold)]
    rfl
  constructor
  · intro ha
    obtain ⟨data, hdata, rfl | ⟨_, _, _, ⟨⟩, -⟩⟩ := hsame.exists_right ha
    obtain ⟨old, hold, hdata⟩ := bind_eq_ok.1 hdata
    exact ⟨old, hold, by rw [hderef old hold, hdata]⟩
  · rintro ⟨old, hold, ha⟩
    rw [hderef old hold] at ha
    obtain ⟨d, hd, rfl | ⟨_, _, _, ⟨⟩, -⟩⟩ := hsame.exists_left (bind_eq_ok.2 ⟨old, hold, ha⟩)
    exact hd

/-- The value that a compound assignment stores is the one that an assignment of the result
of its operator stores. -/
theorem assignedValue_compound (hop : op.binary? = some b) :
    m.assignedValue slot op v = .ok w ↔ ∃ old a c r, m.readPlace slot.place = .ok old ∧
      m.resolve old = .ok a ∧ m.resolve v = .ok c ∧ Value.binary b a c = .ok r ∧
      m.assignedValue slot .assign r = .ok w := by
  rw [assignedValue, hop]
  constructor
  · intro h
    obtain ⟨old, hold, h⟩ := bind_eq_ok.1 h
    obtain ⟨a, ha, h⟩ := bind_eq_ok.1 h
    obtain ⟨c, hc, h⟩ := bind_eq_ok.1 h
    obtain ⟨r, hr, h⟩ := bind_eq_ok.1 h
    exact ⟨old, a, c, r, hold, ha, hc, hr, h⟩
  · rintro ⟨old, a, c, r, hold, ha, hc, hr, h⟩
    exact bind_eq_ok.2 ⟨old, hold, bind_eq_ok.2 ⟨a, ha, bind_eq_ok.2 ⟨c, hc,
      bind_eq_ok.2 ⟨r, hr, h⟩⟩⟩⟩

/-- What an operator makes of what a name stands for and of other data is data. -/
theorem Sound.resolve_binary (hm : m.Sound) (ha : m.resolve (.ident name) = .ok a)
    (hv : v.Kept m.heap.capacity) (hr : ¬v.IsRef) (h : Value.binary b a v = .ok w) :
    m.resolve w = .ok w := by
  obtain ⟨x, hx, hxa⟩ := bind_eq_ok.1 ha
  obtain ⟨ha, ha'⟩ := hm.resolve (hm.lookup hx) (mapError_eq_ok.1 hxa)
  have hmade := Value.binary_eq_ok h
  exact resolve_of_kept (hmade.kept ha hv ha' hr) hmade.not_isRef

end Machine

namespace Exec

open Machine

variable {m m' : Machine} {op : AssignOp} {b : BinaryOp} {name : String} {v w : Value}

/-- A compound assignment to a variable assigns what the operator makes of the old value and
of the new one. -/
theorem assign_compound (hop : op.binary? = some b) (hm : m.Sound) (hv : v.Kept m.heap.capacity)
    (hr : ¬v.IsRef) : assign (.var name) op v m = .ok w m' ↔
      ∃ a r, m.resolve (.ident name) = .ok a ∧ Value.binary b a v = .ok r ∧
        assign (.var name) .assign r m = .ok w m' := by
  have hself := resolve_of_kept hv hr
  simp only [assign_ok_iff]
  constructor
  · rintro ⟨slot, hslot, hw, hm'⟩
    obtain ⟨old, a, c, r, hold, ha, hc, hbin, hw⟩ := (assignedValue_compound hop).1 hw
    rw [hself] at hc
    cases hc
    exact ⟨a, r, (resolve_ident_iff hm hslot).2 ⟨old, hold, ha⟩, hbin, slot, hslot, hw, hm'⟩
  · rintro ⟨a, r, ha, hbin, slot, hslot, hw, hm'⟩
    obtain ⟨old, hold, ha⟩ := (resolve_ident_iff hm hslot).1 ha
    exact ⟨slot, hslot,
      (assignedValue_compound hop).2 ⟨old, a, v, r, hold, ha, hself, hbin, hw⟩, hm'⟩

end Exec

/-! ## Expressions -/

namespace Evaluator

variable {F : Evaluator Tree} {m m' : Machine} {op : AssignOp} {b : BinaryOp} {name : String}
  {e : Tree} {w : Value}

theorem meaning_assign_ok_iff : F.meaning (.assign op (.ident name) e) m = .ok w m' ↔
    ∃ c m₁ v, F.meaning e m = .ok c m₁ ∧ m₁.resolve c = .ok v ∧
      Exec.assign (.var name) op v m₁ = .ok w m' := by
  simp only [meaning, pure_bind, Exec.bind_ok_iff, Exec.check_ok_iff]
  constructor
  · rintro ⟨c, m₁, hc, v, _, ⟨hv, rfl⟩, h⟩
    exact ⟨c, _, v, hc, hv, h⟩
  · rintro ⟨c, m₁, v, hc, hv, h⟩
    exact ⟨c, m₁, hc, v, m₁, ⟨hv, rfl⟩, h⟩

theorem meaning_operation_ok_iff :
    F.meaning (.binary b (.ident name) (.paren e)) m = .ok w m' ↔
      ∃ c a v, F.meaning e m = .ok c m' ∧ m'.resolve (.ident name) = .ok a ∧
        m'.resolve c = .ok v ∧ Value.binary b a v = .ok w := by
  simp only [meaning, pure_bind, Exec.bind_ok_iff, Exec.check_ok_iff, bind_eq_ok]
  constructor
  · rintro ⟨c, m₁, hc, ⟨a, ha, v, hv, hw⟩, rfl⟩
    exact ⟨c, a, v, hc, ha, hv, hw⟩
  · rintro ⟨c, a, v, hc, ha, hv, hw⟩
    exact ⟨c, m', hc, ⟨a, ha, v, hv, hw⟩, rfl⟩

/-- Both operands of the operator are resolved where the value of `e` is, so the two
expressions agree if `e` leaves a sound machine and a value that may be stored. -/
theorem meaning_compound (hop : op.binary? = some b)
    (he : ∀ c m₁ v, F.meaning e m = .ok c m₁ → m₁.resolve c = .ok v →
      m₁.Sound ∧ v.Kept m₁.heap.capacity ∧ ¬v.IsRef) :
    F.meaning (.assign op (.ident name) e) m = .ok w m' ↔
      F.meaning (.assign .assign (.ident name) (.binary b (.ident name) (.paren e))) m =
        .ok w m' := by
  simp only [meaning_assign_ok_iff, meaning_operation_ok_iff]
  constructor
  · rintro ⟨c, m₁, v, hc, hv, h⟩
    obtain ⟨hm₁, hkept, hr⟩ := he c m₁ v hc hv
    obtain ⟨a, r, ha, hbin, h⟩ := (Exec.assign_compound hop hm₁ hkept hr).1 h
    exact ⟨r, m₁, r, ⟨c, a, v, hc, ha, hv, hbin⟩, hm₁.resolve_binary ha hkept hr hbin, h⟩
  · rintro ⟨r, m₁, r', ⟨c, a, v, hc, ha, hv, hbin⟩, hr', h⟩
    obtain ⟨hm₁, hkept, hr⟩ := he c m₁ v hc hv
    rw [hm₁.resolve_binary ha hkept hr hbin] at hr'
    cases hr'
    exact ⟨c, m₁, v, hc, hv, (Exec.assign_compound hop hm₁ hkept hr).2 ⟨a, r, ha, hbin, h⟩⟩

end Evaluator

/-- What the value of an expression of lowered trees is resolved to is data that may be
stored, on a sound machine. -/
theorem data_of_expr {n : Nat} {e : Expr} {m m' : Machine} {c v : Value} (hm : m.Sound)
    (he : e.Every Expr.IsLowered) (hc : (evaluator n).expr e m = .ok c m')
    (hv : m'.resolve c = .ok v) : m'.Sound ∧ v.Kept m'.heap.capacity ∧ ¬v.IsRef := by
  have hafter := (Law.respects_evaluator soundness n).expr he.within hm
  rw [hc] at hafter
  obtain ⟨hnext, hoperand⟩ := hafter
  exact ⟨hnext.inv, Law.data_of_operand hnext.inv hoperand hv⟩

/-- Every expression in an expression of a parsed program is a lowered tree. -/
theorem every_isLowered_of_parse {name : String} {tokens : List Token} {p : Program} {e : Expr}
    (hp : parse name tokens = .ok p) (he : p.Has e) : e.Every Expr.IsLowered := by
  obtain ⟨s, hs, he⟩ := he
  exact fun x hx => isLowered_of_parse hp s hs x (he.trans hx)

/-- For every compound assignment `op` with operator `b`, `x op e` and `x = x b (e)` come to
the same value and leave the same machine, and one succeeds if and only if the other does,
whatever `e` does and whether `x` holds data or a reference. -/
theorem compound_assignment {op : AssignOp} {b : BinaryOp} {x : String} {e : Tree} {line : Nat}
    {m : Machine} (hop : op.binary? = some b) (hm : m.Sound)
    (he : (e.lower line).Every Expr.IsLowered) (n : Nat) (v : Value) (m' : Machine) :
    ((evaluator n).expr ((Tree.assign op (.ident x) e).lower line) m = .ok v m' ↔
      (evaluator n).expr ((Tree.assign .assign (.ident x)
        (.binary b (.ident x) (.paren e))).lower line) m = .ok v m') ∧
    ((evaluator n).value ((Tree.assign op (.ident x) e).lower line) m = .ok v m' ↔
      (evaluator n).value ((Tree.assign .assign (.ident x)
        (.binary b (.ident x) (.paren e))).lower line) m = .ok v m') := by
  have hexpr (w : Value) (m₁ : Machine) :
      (evaluator n).expr ((Tree.assign op (.ident x) e).lower line) m = .ok w m₁ ↔
        (evaluator n).expr ((Tree.assign .assign (.ident x)
          (.binary b (.ident x) (.paren e))).lower line) m = .ok w m₁ := by
    rw [expr_lower, expr_lower]
    cases n with
    | zero => exact Iff.rfl
    | succ n =>
      refine Evaluator.meaning_compound hop fun c m₁ w hc hw => data_of_expr hm he (n := n + 1) ?_ hw
      rw [expr_lower]
      exact hc
  refine ⟨hexpr v m', ?_⟩
  simp only [Evaluator.value, Exec.bind_ok_iff, hexpr]

/-- The expression `x = "b"`. -/
def setB : Tree :=
  .assign .assign (.ident "x") (.str "b")

/-- The statement `alloc str x = "a";`. -/
def allocA : Stmt :=
  .decl { isAlloc := true } .str "x" (some ((Tree.str "a").lower 1)) 1

/-- The value of `x += x = "b"` is `"bb"`, as that of `x = x + (x = "b")`, where `x` refers to
a text on the heap. -/
theorem compound_assignment_setB :
    ∃ m m', m.Reachable ∧ m.frames.main.get? "x" = some ⟨.str, .ref 0, false⟩ ∧
      (evaluator 5).value ((Tree.assign .add (.ident "x") setB).lower 1) m =
        .ok (.str "bb") m' ∧
      (evaluator 5).value ((Tree.assign .assign (.ident "x")
        (.binary .add (.ident "x") (.paren setB))).lower 1) m = .ok (.str "bb") m' := by
  have hrun : ∃ m m', parse "main" (writtenTokens [allocA]) = .ok ⟨"main", [allocA]⟩ ∧
      (Machine.create {} .builtin .silent {}).runWith 5 ⟨"main", [allocA]⟩ = .ok () m ∧
      m.frames.main.get? "x" = some ⟨.str, .ref 0, false⟩ ∧
      (evaluator 5).value ((Tree.assign .add (.ident "x") setB).lower 1) m =
        .ok (.str "bb") m' := ⟨_, _, rfl, rfl, rfl, rfl⟩
  obtain ⟨m, m', hp, hrun, hx, hcompound⟩ := hrun
  have hm : m.Reachable := .run 5 (.create {} .silent {}) hp (by rw [hrun]; rfl)
  have hset : parse "main" (writtenTokens [.expr (setB.lower 1) 1]) =
      .ok ⟨"main", [.expr (setB.lower 1) 1]⟩ := rfl
  have he := every_isLowered_of_parse hset
    ⟨_, List.mem_singleton.2 rfl, .own (List.mem_singleton.2 rfl) (.self _)⟩
  exact ⟨m, m', hm, hx, hcompound,
    (compound_assignment rfl hm.sound he 5 _ _).2.1 hcompound⟩

end HeapScript
