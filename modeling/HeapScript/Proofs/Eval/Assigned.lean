import HeapScript.Proofs.Discipline.Evaluator
import HeapScript.Proofs.Eval.Typed
import HeapScript.Proofs.Machine.Outcome

/-!
# What becomes of a variable

A variable is changed by assignments until it is declared again. A constant stays as
it is, and so does a variable that holds a reference; any other one always holds data.

* `keeping` is the discipline of computations that do not declare a name: whatever
  their outcome, `Variable.Becomes` says what they made of its variable.
* `variables_keep_storage`: the types of variables on reachable machines, and what
  statements and expressions keep of a variable.
* `constant_unchanged`: a constant that is not declared again is what it was.
-/

namespace HeapScript

/-! ## The machines that computations leave behind -/

namespace Exec

variable {α β : Type} {m m' : Machine}

/-- A sequence ends where its first part fails, or where its second part ends. -/
theorem machine?_bind {x : Exec α} {f : α → Exec β} (h : ((x >>= f) m).machine? = some m') :
    (∃ e, x m = .error e m') ∨ ∃ a m₁, x m = .ok a m₁ ∧ (f a m₁).machine? = some m' := by
  rw [bind_apply] at h
  cases hx : x m with
  | ok a m₁ =>
    rw [hx] at h
    exact .inr ⟨a, m₁, rfl, h⟩
  | error e m₁ =>
    rw [hx] at h
    cases h
    exact .inl ⟨e, rfl⟩
  | outOfFuel =>
    rw [hx] at h
    cases h

@[simp] theorem machine?_located (line : Nat) (x : Exec α) (m : Machine) :
    (located line x m).machine? = (x m).machine? := by
  rw [located]
  rcases x m with _ | ⟨⟨f, _ | site⟩, m₁⟩ | _ <;> rfl

theorem machine?_inLoop {x : Exec α} (h : (inLoop x m).machine? = some m') :
    ∃ m₁, (x (m.modifyFrame fun f => { f with loopDepth := f.loopDepth + 1 })).machine? = some m₁ ∧
      m' = m₁.modifyFrame fun f => { f with loopDepth := f.loopDepth - 1 } := by
  rw [inLoop] at h
  cases hx : x (m.modifyFrame fun f => { f with loopDepth := f.loopDepth + 1 }) with
  | ok a m₁ =>
    rw [hx] at h
    cases h
    exact ⟨m₁, rfl, rfl⟩
  | error e m₁ =>
    rw [hx] at h
    cases h
    exact ⟨m₁, rfl, rfl⟩
  | outOfFuel =>
    rw [hx] at h
    cases h

theorem machine?_check {g : Machine → Except Fault α} {k : α → Exec β}
    (h : ((check g >>= k) m).machine? = some m') :
    m' = m ∨ ∃ a, g m = .ok a ∧ (k a m).machine? = some m' := by
  rw [bind_apply, check] at h
  cases hg : g m with
  | ok a =>
    rw [hg] at h
    exact .inr ⟨a, rfl, h⟩
  | error f =>
    rw [hg] at h
    cases h
    exact .inl rfl

/-- An assignment fails and changes nothing, or writes to the slot it found. -/
theorem machine?_assign {p : Place} {op : AssignOp} {v : Value}
    (h : (assign p op v m).machine? = some m') :
    m' = m ∨ ∃ slot w, m.locate p = .ok slot ∧ m.assignedValue slot op v = .ok w ∧
      m.writePlace slot.place w = .ok m' := by
  rcases assign_cases p op v m with ⟨f, hrun⟩ | ⟨slot, w, m₁, hslot, hw, hm₁, hrun⟩
  · rw [hrun] at h
    cases h
    exact .inl rfl
  · rw [hrun] at h
    cases h
    exact .inr ⟨slot, w, hslot, hw, hm₁⟩

end Exec

/-! ## A variable that is not declared again -/

/-- What the second frame has under the name is what assignments can make of what the
first one has. -/
def Frame.Keeps (k : String) (f g : Frame) : Prop :=
  Option.Rel Variable.Becomes (f.get? k) (g.get? k)

namespace Frame

variable {k : String} {f g : Frame}

theorem keeps_of_vars (h : g.vars = f.vars) : f.Keeps k g := by
  rw [Keeps, get?, get?, h]
  cases f.vars.lookup k with
  | none => exact .none
  | some x => exact .some .same

theorem Keeps.trans {f' : Frame} (h : f.Keeps k g) (h' : g.Keeps k f') : f.Keeps k f' := by
  rw [Keeps] at h h' ⊢
  generalize f.get? k = x at h ⊢
  generalize g.get? k = y at h h'
  generalize f'.get? k = z at h' ⊢
  cases h with
  | none => exact h'
  | some h =>
    cases h' with
    | some h' => exact .some (h.trans h')

theorem keeps_declare {name : String} (hname : name ≠ k) (x : Variable) :
    f.Keeps k (f.declare name x) := by
  have hget : (f.declare name x).get? k = f.get? k := by rw [get?_declare, if_neg hname.symm]
  rw [Keeps, hget]
  exact keeps_of_vars rfl

theorem keeps_assign {name : String} {x : Variable} {v : Value} (hx : f.get? name = some x)
    (hconst : x.isConst = false) (hdata : ¬x.value.IsRef) (hv : ¬v.IsRef) :
    f.Keeps k (f.assign name v) := by
  rw [Keeps, get?_assign]
  split
  · rename_i hk
    rw [hk, hx]
    exact .some (.assigned hconst hdata hv)
  · exact keeps_of_vars rfl

end Frame

namespace Machine

/-- What the second machine has in its innermost frame is what assignments can make of
what the first one has. -/
abbrev Keeps (k : String) (m m' : Machine) : Prop :=
  m.frames.current.Keeps k m'.frames.current

variable {k : String} {m m' : Machine}

theorem keeps_of_frames (h : m'.frames = m.frames) : m.Keeps k m' := by
  rw [Keeps, h]
  exact Frame.keeps_of_vars rfl

theorem keeps_modifyFrame {g : Frame → Frame} (hg : m.frames.current.Keeps k (g m.frames.current)) :
    m.Keeps k (m.modifyFrame g) := by
  rw [Keeps, modifyFrame, CallStack.current_modifyCurrent]
  exact hg

theorem keeps_assign {p : Place} {slot : Slot} {op : AssignOp} {v w : Value}
    (hl : m.locate p = .ok slot) (hv : ¬v.IsRef ∨ p.path ≠ [])
    (hw : m.assignedValue slot op v = .ok w) (h : m.writePlace slot.place w = .ok m') :
    m.Keeps k m' := by
  rcases assign_cases hl hv hw h with h | ⟨name, x, new, hget, hconst, hx, hnew, -, rfl⟩
  · exact keeps_of_frames h
  · exact keeps_modifyFrame (Frame.keeps_assign hget hconst hx hnew)

end Machine

/-- The discipline of not declaring a name: computations assign to its variable at
most. -/
def keeping (k : String) : Discipline where
  Holds x := ∀ m m' : Machine, (x m).machine? = some m' → m.Keeps k m'
  Binds name := name ≠ k
  Admits _ := True
  pure _ _ _ h := by
    cases h
    exact Machine.keeps_of_frames rfl
  bind hx hf m m' h := by
    rcases Exec.machine?_bind h with ⟨e, he⟩ | ⟨a, m₁, ha, h⟩
    · exact hx m m' (by rw [he]; rfl)
    · exact (hx m m₁ (by rw [ha]; rfl)).trans (hf a m₁ m' h)
  exhausted _ _ h := nomatch h
  check _ hk m m' h := by
    rcases Exec.machine?_check h with rfl | ⟨a, ha, h⟩
    · exact Machine.keeps_of_frames rfl
    · exact hk m a trivial ha m m' h
  line _ _ _ h := by
    cases h
    exact Machine.keeps_modifyFrame (Frame.keeps_of_vars rfl)
  pending _ _ _ h := by
    cases h
    exact Machine.keeps_modifyFrame (Frame.keeps_of_vars rfl)
  declare x hname m _ h := by
    cases h
    exact Machine.keeps_modifyFrame (Frame.keeps_declare hname x)
  allocate ty isConst v hname m _ h := by
    cases h
    have hnoted (m' : Machine) (h : m.Keeps k m') : m.Keeps k m'.noteAllocation :=
      h.trans (Machine.keeps_of_frames (Machine.frames_noteAllocation m'))
    exact hnoted _ (Machine.keeps_modifyFrame (Frame.keeps_declare hname _))
  assign op hv m m' h := by
    rcases Exec.machine?_assign h with rfl | ⟨slot, w, hl, hw, h⟩
    · exact Machine.keeps_of_frames rfl
    · exact Machine.keeps_assign hl hv hw h
  native args _ _ m m' h := by
    rw [Exec.native] at h
    split at h <;> cases h <;> exact Machine.keeps_of_frames rfl
  located line hx m m' h := hx m m' (by rwa [Exec.machine?_located] at h)
  inLoop hx m m' h := by
    obtain ⟨m₁, hm₁, rfl⟩ := Exec.machine?_inLoop h
    have henter := Machine.keeps_modifyFrame (k := k) (m := m)
      (g := fun f => { f with loopDepth := f.loopDepth + 1 }) (Frame.keeps_of_vars rfl)
    exact (henter.trans (hx _ m₁ hm₁)).trans (Machine.keeps_modifyFrame (Frame.keeps_of_vars rfl))
  inFrame f hx _ m m' h := Machine.keeps_of_frames (frames_of_inFrame (hx _) h)

/-! ## Types and references -/

/-- Two states of a variable that is declared as it was, and that holds a reference if
and only if it did, to the same chunk. -/
structure Variable.SameStorage (x y : Variable) : Prop where
  ty : y.ty = x.ty
  isConst : y.isConst = x.isConst
  ref (index : Nat) : y.value = .ref index ↔ x.value = .ref index

theorem Variable.Becomes.sameStorage {x y : Variable} (h : x.Becomes y) : x.SameStorage y := by
  cases h with
  | same => exact ⟨rfl, rfl, fun _ => .rfl⟩
  | assigned _ hx hv => exact ⟨rfl, rfl, fun i => iff_of_false (hv ⟨i, ·⟩) (hx ⟨i, ·⟩)⟩

theorem Frame.Keeps.sameStorage {k : String} {f g : Frame} (h : f.Keeps k g) :
    Option.Rel Variable.SameStorage (f.get? k) (g.get? k) := by
  rw [Keeps] at h
  generalize f.get? k = x at h ⊢
  generalize g.get? k = y at h ⊢
  cases h with
  | none => exact .none
  | some h => exact .some h.sameStorage

/-- Whatever the outcome of an expression, it changed the innermost frame only. -/
theorem confined_of_expr {n : Nat} {e : Expr} {m m' : Machine}
    (h : ((evaluator n).expr e m).machine? = some m') : m.Confined m' := by
  have hafter := (Law.respects_evaluator isolation n).expr (m := m) (e := e)
    (Expr.Every.within fun _ _ => trivial) trivial
  exact (hafter.next h).confined

/-- On a reachable machine, every variable that holds no reference holds data that its
type accepts, or void if its type has no other default. Whatever the outcome of a
statement on any machine, the variables of the other frames are what they were, and
those of the innermost frame that it does not declare are of the same type, hold data
if they held data, and hold the reference they held. An expression declares nothing. -/
theorem variables_keep_storage :
    (∀ m : Machine, m.Reachable → ∀ f ∈ m.frames.frames, ∀ name x, (name, x) ∈ f.vars →
      x.value.IsRef ∨ x.ty.accepts x.value.type ∨ x.value = .void ∧ x.ty.default = .void) ∧
    (∀ (n : Nat) (s : Stmt) (m m' : Machine), ((evaluator n).stmt s m).machine? = some m' →
      m'.frames.frames.tail = m.frames.frames.tail ∧
      ∀ k, ¬s.Declares k →
        Option.Rel Variable.SameStorage (m.frames.current.get? k) (m'.frames.current.get? k)) ∧
    ∀ (n : Nat) (e : Expr) (m m' : Machine), ((evaluator n).expr e m).machine? = some m' →
      m'.frames.frames.tail = m.frames.frames.tail ∧
      ∀ k,
        Option.Rel Variable.SameStorage (m.frames.current.get? k) (m'.frames.current.get? k) := by
  refine ⟨fun m hm f hf name x hx => (hm.typed f hf).vars _ hx, ?_, ?_⟩
  · intro n s m m' h
    refine ⟨(confined_of_stmt h).frames.tail_frames, fun k hk => ?_⟩
    have hkeeps := (Discipline.governs_evaluator (keeping k) n).stmt (s := s)
      fun name hname hk' => hk (hk' ▸ hname)
    exact (hkeeps m m' h).sameStorage
  · intro n e m m' h
    refine ⟨(confined_of_expr h).frames.tail_frames, fun k => ?_⟩
    exact ((Discipline.governs_evaluator (keeping k) n).expr e m m' h).sameStorage

/-- After `alloc str a = "x"; C[] b = [C(a)];`, the assignment `a = "y"` writes to the
chunk, and the variable goes on referring to it. -/
theorem variables_keep_storage_boxes :
    ∃ m m' x y, m.Reachable ∧
      ((evaluator 9).stmt (.expr (Tree.lower 1 (.assign .assign (.ident "a") (.str "y"))) 1)
        m).machine? = some m' ∧
      m.frames.current.get? "a" = some x ∧ m'.frames.current.get? "a" = some y ∧
      x.value = .ref 0 ∧ y.value = .ref 0 ∧ m'.deref y.value = .ok (.str "y") ∧
      (Ty.array (.named "C")).accepts boxes.type := by
  have hrun : ∃ p e m m' x y, parse "boxes" boxTokens = .ok p ∧
      (Machine.create {} .builtin .silent {}).runWith 12 p = .error e m ∧
      m.frames.main.vars[0]? = some ("b", ⟨.array (.named "C"), boxes, false⟩) ∧
      ((evaluator 9).stmt (.expr (Tree.lower 1 (.assign .assign (.ident "a") (.str "y"))) 1)
        m).machine? = some m' ∧
      m.frames.current.get? "a" = some x ∧ m'.frames.current.get? "a" = some y ∧
      x.value = .ref 0 ∧ m'.deref (.ref 0) = .ok (.str "y") :=
    ⟨_, _, _, _, _, _, rfl, rfl, rfl, rfl, rfl, rfl, rfl, rfl⟩
  obtain ⟨p, e, m, m', x, y, hp, hrun, hb, hstep, hx, hy, href, hdata⟩ := hrun
  have hm : m.Reachable := .run 12 (.create {} .silent {}) hp (by rw [hrun]; rfl)
  obtain ⟨htypes, hkeeps, -⟩ := variables_keep_storage
  have hsame := (hkeeps 9 _ m m' hstep).2 "a" (by rintro (_ | _ | ⟨h, -⟩); cases h)
  rw [hx, hy] at hsame
  cases hsame with
  | some hsame =>
    have hy' := (hsame.ref 0).2 href
    have hb := htypes m hm _ m.frames.main_mem_frames _ _ (List.mem_of_getElem? hb)
    refine ⟨m, m', x, y, hm, hstep, hx, hy, href, hy', by rw [hy']; exact hdata, ?_⟩
    rcases hb with ⟨_, h⟩ | h | ⟨h, -⟩
    · cases h
    · exact h
    · cases h

/-! ## Constants -/

theorem Variable.Becomes.eq_of_isConst {x y : Variable} (h : x.Becomes y) (hx : x.isConst) :
    y = x := by
  cases h with
  | same => rfl
  | assigned hconst _ _ =>
    rw [hconst] at hx
    cases hx

theorem Frame.Keeps.get?_const {k : String} {f g : Frame} {x : Variable} (h : f.Keeps k g)
    (hget : f.get? k = some x) (hx : x.isConst) : g.get? k = some x := by
  rw [Keeps, hget] at h
  generalize g.get? k = y at h ⊢
  cases h with
  | some h => rw [h.eq_of_isConst hx]

/-- Whatever the outcome of a statement that does not declare the name of a constant, the
constant is what it was. -/
theorem constant_unchanged {n : Nat} {s : Stmt} {m m' : Machine} {k : String} {x : Variable}
    (hget : m.frames.current.get? k = some x) (hx : x.isConst) (hk : ¬s.Declares k)
    (h : ((evaluator n).stmt s m).machine? = some m') : m'.frames.current.get? k = some x := by
  have hkeeps : m.Keeps k m' := (Discipline.governs_evaluator (keeping k) n).stmt (s := s)
    (fun name hname hk' => hk (hk' ▸ hname)) m m' h
  exact hkeeps.get?_const hget hx

namespace Stmt

variable {name k : String} {line : Nat}

theorem declares_decl {flags : DeclFlags} {ty : Ty} {init : Option Expr} :
    (decl flags ty name init line).Declares k ↔ name = k := by
  constructor
  · rintro (_ | _ | ⟨⟨⟩, _⟩)
    rfl
  · rintro rfl
    exact .decl flags ty name init line

theorem not_declares_expr {e : Expr} : ¬(expr e line).Declares k := by
  rintro (_ | _ | ⟨⟨⟩, _⟩)

theorem declares_block {body : List Stmt} :
    (block body line).Declares k ↔ ∃ s ∈ body, s.Declares k := by
  constructor
  · rintro (_ | _ | ⟨hs, hk⟩)
    exact ⟨_, hs, hk⟩
  · rintro ⟨s, hs, hk⟩
    exact .part hs hk

end Stmt

/-- The statement `{ func f = …; f(); k = "d"; }`, where the function declares a `k` of its
own and assigns to that: `str k = "b"; k = "c";`. -/
def shadowing : Stmt :=
  .block
    [.decl {} .func "f" (some ((Tree.function {
        params := [], returnType := .void, returnsRef := false, captures := true, line := 1
        body := .block
          [.decl {} .str "k" (some ((Tree.str "b").lower 1)) 1,
            .expr ((Tree.assign .assign (.ident "k") (.str "c")).lower 1) 1] 1 }).lower 1)) 1,
      .expr ((Tree.call (.ident "f") []).lower 1) 1,
      .expr ((Tree.assign .assign (.ident "k") (.str "d")).lower 1) 1] 1

/-- After `const str k = "a";`, the call of the function that has a `k` of its own succeeds,
the assignment to the constant does not, and the constant is what it was. -/
theorem constant_unchanged_shadowing :
    ∃ m e m', (evaluator 9).stmt shadowing m = .error e m' ∧
      e.fault = .constantAssignment "k" ∧ (m'.frames.current.get? "f").isSome ∧
      m.frames.current.get? "k" = some ⟨.str, .str "a", true⟩ ∧
      m'.frames.current.get? "k" = some ⟨.str, .str "a", true⟩ := by
  have hrun : ∃ m e m',
      (evaluator 9).stmt (.decl { isConst := true } .str "k" (some ((Tree.str "a").lower 1)) 1)
        (Machine.create {} .builtin .silent {}) = .ok .normal m ∧
      (evaluator 9).stmt shadowing m = .error e m' ∧ e.fault = .constantAssignment "k" ∧
      (m'.frames.current.get? "f").isSome ∧
      m.frames.current.get? "k" = some ⟨.str, .str "a", true⟩ :=
    ⟨_, _, _, rfl, rfl, rfl, rfl, rfl⟩
  obtain ⟨m, e, m', -, hstep, he, hf, hget⟩ := hrun
  refine ⟨m, e, m', hstep, he, hf, hget, constant_unchanged hget rfl ?_ (by rw [hstep]; rfl)⟩
  simp [shadowing, Stmt.declares_block, Stmt.declares_decl, Stmt.not_declares_expr]

end HeapScript
