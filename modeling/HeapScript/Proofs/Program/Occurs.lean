import HeapScript.Program.Basic

/-!
# Where expressions and statements occur

The expressions of a statement, at any depth: its own, those of the statements in
it, the groups, arguments, indices and elements of these, and those of the bodies
of their function literals. Its statements likewise.

* `Stmt.Has` and `Expr.Has` say that an expression occurs, `Stmt.Contains` that a
  statement does.
* `Stmt.Every` and `Expr.Every` say that a property holds of every expression that
  does, `Stmt.Within` and `Expr.Within` that one holds of every statement too.
* `Program.Has` and `Program.Contains` say what occurs in a program.
* `Instr.operands` is the number of operands that an instruction takes off the
  stack; `suffices?` says that a sequence of instructions never finds too few.
-/

namespace HeapScript

/-- The expressions of a statement itself. -/
def Stmt.exprs : Stmt → List Expr
  | .expr e _ => [e]
  | .decl _ _ _ init _ => init.toList
  | .ifThen cond _ _ _ => [cond]
  | .whileLoop cond _ _ => [cond]
  | .forLoop _ cond _ _ _ => cond.toList
  | .returnValue value _ => value.toList
  | .setMember target _ _ value _ => [target, value]
  | .setIndex target index _ value _ => [target, index, value]
  | .classDef _ _ | .block _ _ | .breakLoop _ | .continueLoop _ | .nop _ => []

/-- The statements that a statement is made of. -/
def Stmt.parts : Stmt → List Stmt
  | .ifThen _ thenBranch elseBranch _ => thenBranch :: elseBranch.toList
  | .whileLoop _ body _ => [body]
  | .forLoop init _ step body _ => init.toList ++ step.toList ++ [body]
  | .block body _ => body
  | .expr _ _ | .decl _ _ _ _ _ | .classDef _ _ | .breakLoop _ | .continueLoop _
  | .returnValue _ _ | .setMember _ _ _ _ _ | .setIndex _ _ _ _ _ | .nop _ => []

/-- The expressions attached to an instruction. -/
def Instr.exprs : Instr → List Expr
  | .array elements => elements
  | .call args => args
  | .index e => [e]
  | .num _ | .str _ | .bool _ | .ident _ | .function _ | .binary _ | .unary _ | .assign _
  | .member => []

mutual

/-- The expression occurs in the statement. -/
inductive Stmt.Has : Stmt → Expr → Prop
  | own {s : Stmt} {e x : Expr} : e ∈ s.exprs → e.Has x → Stmt.Has s x
  | part {s t : Stmt} {x : Expr} : t ∈ s.parts → t.Has x → Stmt.Has s x

/-- The second expression occurs in the first. -/
inductive Expr.Has : Expr → Expr → Prop
  | self (e : Expr) : Expr.Has e e
  | group {e g x : Expr} : .group g ∈ e.items → g.Has x → Expr.Has e x
  | attached {e a x : Expr} {i : Instr} : i ∈ e.flatten → a ∈ i.exprs → a.Has x → Expr.Has e x
  | body {e x : Expr} {d : FunctionDef} : .function d ∈ e.flatten → d.body.Has x → Expr.Has e x

end

mutual

theorem Stmt.Has.trans {s : Stmt} {e x : Expr} : s.Has e → e.Has x → s.Has x
  | .own h he, hx => .own h (he.trans hx)
  | .part h hs, hx => .part h (hs.trans hx)

theorem Expr.Has.trans {e y x : Expr} : e.Has y → y.Has x → e.Has x
  | .self _, hx => hx
  | .group h hg, hx => .group h (hg.trans hx)
  | .attached hi h ha, hx => .attached hi h (ha.trans hx)
  | .body h hb, hx => .body h (hb.trans hx)

end

/-- The property holds of every expression in the statement. -/
def Stmt.Every (P : Expr → Prop) (s : Stmt) : Prop :=
  ∀ e, s.Has e → P e

/-- The property holds of every expression in the expression. -/
def Expr.Every (P : Expr → Prop) (e : Expr) : Prop :=
  ∀ x, e.Has x → P x

section Every

variable {P : Expr → Prop} {s t : Stmt} {e a : Expr}

theorem Stmt.Every.own (h : s.Every P) (he : e ∈ s.exprs) : e.Every P :=
  fun x hx => h x (.own he hx)

theorem Stmt.Every.part (h : s.Every P) (ht : t ∈ s.parts) : t.Every P :=
  fun x hx => h x (.part ht hx)

theorem Expr.Every.self (h : e.Every P) : P e := h e (.self e)

theorem Expr.Every.attached (h : e.Every P) {i : Instr} (hi : i ∈ e.flatten) (ha : a ∈ i.exprs) :
    a.Every P :=
  fun x hx => h x (.attached hi ha hx)

theorem Expr.Every.body (h : e.Every P) {d : FunctionDef} (hd : .function d ∈ e.flatten) :
    d.body.Every P :=
  fun x hx => h x (.body hd hx)

theorem Stmt.every_iff :
    s.Every P ↔ (∀ e ∈ s.exprs, e.Every P) ∧ ∀ t ∈ s.parts, t.Every P := by
  refine ⟨fun h => ⟨fun e he => h.own he, fun t ht => h.part ht⟩, fun ⟨he, ht⟩ x hx => ?_⟩
  cases hx with
  | own h hx => exact he _ h x hx
  | part h hx => exact ht _ h x hx

end Every

/-! ## Statements -/

/-- The second statement occurs in the first. -/
inductive Stmt.Contains : Stmt → Stmt → Prop
  | self (s : Stmt) : Stmt.Contains s s
  | part {s t u : Stmt} : t ∈ s.parts → t.Contains u → Stmt.Contains s u
  | body {s u : Stmt} {e : Expr} {d : FunctionDef} : s.Has e → .function d ∈ e.flatten →
    d.body.Contains u → Stmt.Contains s u

/-- One property holds of every expression in the statement, the other of every
statement. -/
structure Stmt.Within (P : Expr → Prop) (C : Stmt → Prop) (s : Stmt) : Prop where
  exprs : s.Every P
  stmts : ∀ t, s.Contains t → C t

/-- One property holds of every expression in the expression, the other of every
statement in the body of a function literal. -/
structure Expr.Within (P : Expr → Prop) (C : Stmt → Prop) (e : Expr) : Prop where
  exprs : e.Every P
  stmts : ∀ x d, e.Has x → .function d ∈ x.flatten → ∀ t, d.body.Contains t → C t

section Within

variable {P : Expr → Prop} {C : Stmt → Prop} {s t : Stmt} {e a : Expr}

theorem Stmt.Within.self (h : s.Within P C) : C s := h.stmts s (.self s)

theorem Stmt.Within.own (h : s.Within P C) (he : e ∈ s.exprs) : e.Within P C :=
  ⟨h.exprs.own he, fun _ _ hx hd t ht => h.stmts t (.body (.own he hx) hd ht)⟩

theorem Stmt.Within.part (h : s.Within P C) (ht : t ∈ s.parts) : t.Within P C :=
  ⟨h.exprs.part ht, fun u hu => h.stmts u (.part ht hu)⟩

theorem Expr.Within.self (h : e.Within P C) : P e := h.exprs.self

theorem Expr.Within.attached (h : e.Within P C) {i : Instr} (hi : i ∈ e.flatten)
    (ha : a ∈ i.exprs) : a.Within P C :=
  ⟨h.exprs.attached hi ha, fun x d hx => h.stmts x d (.attached hi ha hx)⟩

theorem Expr.Within.body (h : e.Within P C) {d : FunctionDef} (hd : .function d ∈ e.flatten) :
    d.body.Within P C :=
  ⟨h.exprs.body hd, h.stmts e d (.self e) hd⟩

/-- Where nothing is asked of statements, it is enough to look at the expressions. -/
theorem Stmt.Every.within (h : s.Every P) : s.Within P fun _ => True := ⟨h, fun _ _ => trivial⟩

theorem Expr.Every.within (h : e.Every P) : e.Within P fun _ => True :=
  ⟨h, fun _ _ _ _ _ _ => trivial⟩

end Within

/-- The expression occurs in the program. -/
def Program.Has (p : Program) (e : Expr) : Prop :=
  ∃ s ∈ p.statements, s.Has e

/-- The statement occurs in the program. -/
def Program.Contains (p : Program) (t : Stmt) : Prop :=
  ∃ s ∈ p.statements, s.Contains t

/-- What holds of all that occurs in a program holds of what occurs in its
statements. -/
theorem Program.within {P : Expr → Prop} {C : Stmt → Prop} {p : Program}
    (hP : ∀ e, p.Has e → P e) (hC : ∀ t, p.Contains t → C t) :
    ∀ s ∈ p.statements, s.Within P C :=
  fun s hs => ⟨fun e he => hP e ⟨s, hs, he⟩, fun t ht => hC t ⟨s, hs, ht⟩⟩

/-! ## Operands -/

/-- The expression may assign to the name: it has the name and an assignment. -/
def Expr.Assigns (e : Expr) (name : String) : Prop :=
  .ident name ∈ e.flatten ∧ ∃ op, .assign op ∈ e.flatten

/-- The expression may call what has the name: it has the name and a call. -/
def Expr.Calls (e : Expr) (name : String) : Prop :=
  .ident name ∈ e.flatten ∧ ∃ args, .call args ∈ e.flatten

/-- The number of operands that an instruction takes. -/
def Instr.operands : Instr → Nat
  | .binary _ | .assign _ | .member => 2
  | .unary _ | .call _ | .index _ => 1
  | .num _ | .str _ | .bool _ | .ident _ | .function _ | .array _ => 0

/-- Whether so many operands are enough for a sequence of instructions, each of
which leaves one. -/
def suffices? : Nat → List Instr → Bool
  | _, [] => true
  | n, i :: r => decide (i.operands ≤ n) && suffices? (n - i.operands + 1) r

end HeapScript
