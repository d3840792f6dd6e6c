import HeapScript.Proofs.Program.Occurs

/-!
# Checking all of a program

* `Program.check` applies one test to every expression in a program and another to every
  statement.
* `Program.has_of_check` and `Program.contains_of_check`: a program that passes has only
  expressions and statements that pass.
-/

namespace HeapScript

variable {f : Expr → Bool} {g : Stmt → Bool}

mutual

/-- Whether all that occurs in the statement passes. -/
def Stmt.check (f : Expr → Bool) (g : Stmt → Bool) : Stmt → Bool
  | .expr e l => g (.expr e l) && e.check f g
  | .decl flags ty name init l => g (.decl flags ty name init l) && checkExpr? f g init
  | .classDef c l => g (.classDef c l)
  | .ifThen cond thenBranch elseBranch l =>
    g (.ifThen cond thenBranch elseBranch l) && (cond.check f g && (thenBranch.check f g &&
      checkStmt? f g elseBranch))
  | .whileLoop cond body l => g (.whileLoop cond body l) && (cond.check f g && body.check f g)
  | .forLoop init cond step body l =>
    g (.forLoop init cond step body l) && (checkExpr? f g cond && (checkStmt? f g init &&
      (checkStmt? f g step && body.check f g)))
  | .block body l => g (.block body l) && checkStmts f g body
  | .breakLoop l => g (.breakLoop l)
  | .continueLoop l => g (.continueLoop l)
  | .returnValue value l => g (.returnValue value l) && checkExpr? f g value
  | .setMember target member op value l =>
    g (.setMember target member op value l) && (target.check f g && value.check f g)
  | .setIndex target index op value l =>
    g (.setIndex target index op value l) && (target.check f g && (index.check f g &&
      value.check f g))
  | .nop l => g (.nop l)

/-- Whether all that occurs in an expression that may be missing passes. -/
def checkExpr? (f : Expr → Bool) (g : Stmt → Bool) : Option Expr → Bool
  | none => true
  | some e => e.check f g

/-- Whether all that occurs in a statement that may be missing passes. -/
def checkStmt? (f : Expr → Bool) (g : Stmt → Bool) : Option Stmt → Bool
  | none => true
  | some s => s.check f g

/-- Whether all that occurs in several statements passes. -/
def checkStmts (f : Expr → Bool) (g : Stmt → Bool) : List Stmt → Bool
  | [] => true
  | s :: r => s.check f g && checkStmts f g r

/-- Whether all that occurs in several expressions passes. -/
def checkExprs (f : Expr → Bool) (g : Stmt → Bool) : List Expr → Bool
  | [] => true
  | e :: r => e.check f g && checkExprs f g r

/-- Whether all that occurs in the expression passes. -/
def Expr.check (f : Expr → Bool) (g : Stmt → Bool) : Expr → Bool
  | ⟨items, l⟩ => f ⟨items, l⟩ && checkItems f g items

/-- Whether all that occurs in several parts of an expression passes. -/
def checkItems (f : Expr → Bool) (g : Stmt → Bool) : List Item → Bool
  | [] => true
  | .instr i :: r => i.check f g && checkItems f g r
  | .group e :: r => e.check f g && checkItems f g r

/-- Whether all that occurs in what is attached to an instruction passes. -/
def Instr.check (f : Expr → Bool) (g : Stmt → Bool) : Instr → Bool
  | .function ⟨_, _, _, _, body, _⟩ => body.check f g
  | .array elements => checkExprs f g elements
  | .call args => checkExprs f g args
  | .index e => e.check f g
  | _ => true

end

/-! ## One level -/

@[simp] theorem checkStmts_iff (body : List Stmt) :
    checkStmts f g body = true ↔ ∀ s ∈ body, s.check f g = true := by
  induction body with
  | nil => simp [checkStmts]
  | cons s r ih => simp [checkStmts, ih]

@[simp] theorem checkExprs_iff (es : List Expr) :
    checkExprs f g es = true ↔ ∀ e ∈ es, e.check f g = true := by
  induction es with
  | nil => simp [checkExprs]
  | cons e r ih => simp [checkExprs, ih]

@[simp] theorem checkExpr?_iff (e : Option Expr) :
    checkExpr? f g e = true ↔ ∀ x ∈ e, x.check f g = true := by
  cases e <;> simp [checkExpr?]

@[simp] theorem checkStmt?_iff (s : Option Stmt) :
    checkStmt? f g s = true ↔ ∀ t ∈ s, t.check f g = true := by
  cases s <;> simp [checkStmt?]

theorem Stmt.check_parts {s : Stmt} (h : s.check f g = true) :
    g s = true ∧ (∀ e ∈ s.exprs, e.check f g = true) ∧ ∀ t ∈ s.parts, t.check f g = true := by
  cases s <;> simp_all [Stmt.check, Stmt.exprs, Stmt.parts, or_imp]

theorem Instr.check_exprs {i : Instr} (h : i.check f g = true) :
    (∀ e ∈ i.exprs, e.check f g = true) ∧
      ∀ d, i = .function d → d.body.check f g = true := by
  rcases i with _ | _ | _ | _ | ⟨_, _, _, _, body, _⟩ | _ | _ | _ | _ | _ | _ | _ <;>
    simp_all [Instr.check, Instr.exprs]

mutual

theorem Expr.check_flattenThen : ∀ (e : Expr) {rest : List Instr}, e.check f g = true →
    (∀ i ∈ rest, i.check f g = true) → ∀ i ∈ e.flattenThen rest, i.check f g = true
  | ⟨items, _⟩, _, he, hr => checkItems_flatten items (Bool.and_eq_true_iff.1 he).2 hr

theorem checkItems_flatten : ∀ (items : List Item) {rest : List Instr},
    checkItems f g items = true → (∀ i ∈ rest, i.check f g = true) →
    ∀ i ∈ flattenItems items rest, i.check f g = true
  | [], _, _, hr => hr
  | .instr i :: r, _, hi, hr => by
    obtain ⟨hi, hrest⟩ := Bool.and_eq_true_iff.1 hi
    intro j hj
    rcases List.mem_cons.1 hj with rfl | hj
    · exact hi
    · exact checkItems_flatten r hrest hr j hj
  | .group e :: r, _, hi, hr =>
    have hi := Bool.and_eq_true_iff.1 hi
    Expr.check_flattenThen e hi.1 (checkItems_flatten r hi.2 hr)

end

theorem checkItems_group {items : List Item} {e : Expr} (h : checkItems f g items = true)
    (he : .group e ∈ items) : e.check f g = true := by
  induction items with
  | nil => cases he
  | cons item r ih =>
    cases item with
    | instr i =>
      rw [checkItems, Bool.and_eq_true] at h
      exact ih h.2 (by simpa using he)
    | group x =>
      rw [checkItems, Bool.and_eq_true] at h
      rcases List.mem_cons.1 he with he | he
      · cases he
        exact h.1
      · exact ih h.2 he

theorem Expr.check_parts {e : Expr} (h : e.check f g = true) :
    f e = true ∧ (∀ x, .group x ∈ e.items → x.check f g = true) ∧
      ∀ i ∈ e.flatten, i.check f g = true := by
  rcases e with ⟨items, line⟩
  obtain ⟨hself, hitems⟩ := Bool.and_eq_true_iff.1 h
  refine ⟨hself, fun x hx => checkItems_group hitems hx, ?_⟩
  exact Expr.check_flattenThen _ h (by simp)

/-! ## Every level -/

mutual

theorem Stmt.Has.check {e : Expr} : ∀ {s : Stmt}, s.Has e → s.check f g = true →
    e.check f g = true
  | _, .own he hx, hs => hx.check ((Stmt.check_parts hs).2.1 _ he)
  | _, .part ht hx, hs => hx.check ((Stmt.check_parts hs).2.2 _ ht)

theorem Expr.Has.check {e : Expr} : ∀ {x : Expr}, x.Has e → x.check f g = true →
    e.check f g = true
  | _, .self _, hx => hx
  | _, .group hg h, hx => h.check ((Expr.check_parts hx).2.1 _ hg)
  | _, .attached hi ha h, hx =>
    h.check ((Instr.check_exprs ((Expr.check_parts hx).2.2 _ hi)).1 _ ha)
  | _, .body hd h, hx => h.check ((Instr.check_exprs ((Expr.check_parts hx).2.2 _ hd)).2 _ rfl)

end

theorem Stmt.Contains.check {s t : Stmt} (h : s.Contains t) (hs : s.check f g = true) :
    t.check f g = true := by
  induction h with
  | self => exact hs
  | part ht _ ih => exact ih ((Stmt.check_parts hs).2.2 _ ht)
  | body he hd _ ih =>
    have hi := (Expr.check_parts (he.check hs)).2.2 _ hd
    exact ih ((Instr.check_exprs hi).2 _ rfl)

/-- Whether all that occurs in the program passes. -/
def Program.check (p : Program) (f : Expr → Bool) (g : Stmt → Bool) : Bool :=
  checkStmts f g p.statements

theorem Program.has_of_check {p : Program} (h : p.check f g = true) {e : Expr} (he : p.Has e) :
    f e = true := by
  obtain ⟨s, hs, he⟩ := he
  exact (Expr.check_parts (he.check ((checkStmts_iff _).1 h s hs))).1

theorem Program.contains_of_check {p : Program} (h : p.check f g = true) {t : Stmt}
    (ht : p.Contains t) : g t = true := by
  obtain ⟨s, hs, ht⟩ := ht
  exact (Stmt.check_parts (ht.check ((checkStmts_iff _).1 h s hs))).1

end HeapScript
