import HeapScript.Proofs.Program.Unplaced

/-!
# Well-shaped programs

Which trees are programs: those that can be written down so that they are read back.

* `Stmt.WellShaped`: expressions are lowered trees in which no operand needs
  parentheses, an assignment to a member or an element is a statement of its own kind,
  the bodies of functions are blocks, the clauses of a `for` are declarations and
  expressions, and no `else` could belong to another `if`.
* `Stmt.endsOpen` is for the last of these.
-/

namespace HeapScript

namespace Stmt

/-- Whether the statement ends in an `if` without `else`, which would take the `else`
behind it for its own. -/
def endsOpen : Stmt → Bool
  | .ifThen _ _ none _ => true
  | .ifThen _ _ (some s) _ | .whileLoop _ s _ | .forLoop _ _ _ s _ => s.endsOpen
  | .expr _ _ | .decl _ _ _ _ _ | .classDef _ _ | .block _ _ | .breakLoop _ | .continueLoop _
  | .returnValue _ _ | .setMember _ _ _ _ _ | .setIndex _ _ _ _ _ | .nop _ => false

/-- Whether the statement is an expression, or an assignment to a part of an object. -/
def isExpression : Stmt → Bool
  | .expr _ _ | .setMember _ _ _ _ _ | .setIndex _ _ _ _ _ => true
  | _ => false

/-- Whether the statement is a declaration. -/
def isDecl : Stmt → Bool
  | .decl _ _ _ _ _ => true
  | _ => false

/-- Whether the statement is a block. -/
def isBlock : Stmt → Bool
  | .block _ _ => true
  | _ => false

end Stmt

/-- Whether the tree is an assignment to a member or an element. -/
def Tree.assignsPart : Tree → Bool
  | assign _ (member _ _) _ | assign _ (index _ _) _ => true
  | _ => false

mutual

/-- The tree is shaped, and the bodies of its function literals are well-shaped blocks. -/
inductive Tree.WellShaped : Tree → Prop
  | intro {t : Tree} : t.Shaped → (∀ d, t.Has (.function d) → d.body.isBlock = true) →
    (∀ d, t.Has (.function d) → d.body.WellShaped) → Tree.WellShaped t

/-- The expression is a well-shaped tree, lowered. -/
inductive Expr.WellShaped : Expr → Prop
  | lower {t : Tree} (line : Nat) : t.WellShaped → Expr.WellShaped (t.lower line)

/-- The statement can be written down and read back. -/
inductive Stmt.WellShaped : Stmt → Prop
  | expr {t : Tree} (l line : Nat) : t.WellShaped → t.assignsPart = false →
    Stmt.WellShaped (.expr (t.lower l) line)
  | setMember {object value : Tree} {member : String} {op : AssignOp} (l l' line : Nat) :
    Tree.WellShaped (.assign op (.member object member) value) →
    Stmt.WellShaped (.setMember (object.lower l) member op (value.lower l') line)
  | setIndex {object idx value : Tree} {op : AssignOp} (l l' l'' line : Nat) :
    Tree.WellShaped (.assign op (.index object idx) value) →
    Stmt.WellShaped (.setIndex (object.lower l) (idx.lower l') op (value.lower l'') line)
  | decl (flags : DeclFlags) (ty : Ty) (name : String) {init : Option Expr} (line : Nat) :
    (∀ e ∈ init, e.WellShaped) → Stmt.WellShaped (.decl flags ty name init line)
  | classDef (c : ClassDef) (line : Nat) : Stmt.WellShaped (.classDef c line)
  | ifThen {cond : Expr} {thenBranch : Stmt} {elseBranch : Option Stmt} (line : Nat) :
    cond.WellShaped → thenBranch.WellShaped → (∀ s ∈ elseBranch, s.WellShaped) →
    (elseBranch.isSome = true → thenBranch.endsOpen = false) →
    Stmt.WellShaped (.ifThen cond thenBranch elseBranch line)
  | whileLoop {cond : Expr} {body : Stmt} (line : Nat) : cond.WellShaped → body.WellShaped →
    Stmt.WellShaped (.whileLoop cond body line)
  | forLoop {init : Option Stmt} {cond : Option Expr} {step : Option Stmt} {body : Stmt}
    (line : Nat) : (∀ s ∈ init, s.WellShaped) →
    (∀ s ∈ init, s.isDecl = true ∨ s.isExpression = true) → (∀ e ∈ cond, e.WellShaped) →
    (∀ s ∈ step, s.WellShaped) → (∀ s ∈ step, s.isExpression = true) → body.WellShaped →
    Stmt.WellShaped (.forLoop init cond step body line)
  | block {body : List Stmt} (line : Nat) : (∀ s ∈ body, s.WellShaped) →
    Stmt.WellShaped (.block body line)
  | breakLoop (line : Nat) : Stmt.WellShaped (.breakLoop line)
  | continueLoop (line : Nat) : Stmt.WellShaped (.continueLoop line)
  | returnValue {value : Option Expr} (line : Nat) : (∀ e ∈ value, e.WellShaped) →
    Stmt.WellShaped (.returnValue value line)
  | nop (line : Nat) : Stmt.WellShaped (.nop line)

end

theorem Stmt.endsOpen_unplaced : ∀ s : Stmt, s.unplaced.endsOpen = s.endsOpen
  | .ifThen _ _ none _ => rfl
  | .ifThen _ _ (some s) _ => s.endsOpen_unplaced
  | .whileLoop _ body _ => body.endsOpen_unplaced
  | .forLoop _ _ _ body _ => body.endsOpen_unplaced
  | .expr _ _ | .decl _ _ _ _ _ | .classDef _ _ | .block _ _ | .breakLoop _ | .continueLoop _
  | .returnValue _ _ | .setMember _ _ _ _ _ | .setIndex _ _ _ _ _ | .nop _ => rfl

theorem Stmt.eq_block_of_isBlock {s : Stmt} (h : s.isBlock = true) :
    ∃ body line, s = .block body line := by
  cases s with
  | block body line => exact ⟨body, line, rfl⟩
  | _ => cases h

theorem Tree.toStmt_of_assignsPart {t : Tree} (h : t.assignsPart = false) (line : Nat) :
    t.toStmt line = .expr (t.lower line) line := by
  rw [toStmt.eq_def]
  split
  · cases h
  · cases h
  · rfl

theorem Tree.wellShaped_iff {t : Tree} : t.WellShaped ↔
    t.Fits ∧ (∀ d, t = .function d → d.body.isBlock = true ∧ d.body.WellShaped) ∧
      ∀ u ∈ t.parts, u.WellShaped := by
  constructor
  · rintro ⟨hshaped, hblock, hbody⟩
    refine ⟨hshaped.fits, ?_, fun u hu => ⟨hshaped.part hu, ?_, ?_⟩⟩
    · rintro d rfl
      exact ⟨hblock d (.self _), hbody d (.self _)⟩
    · exact fun d hd => hblock d (.part hu hd)
    · exact fun d hd => hbody d (.part hu hd)
  · rintro ⟨hfits, hself, hparts⟩
    have hfunction (d : FunctionDef) (hd : t.Has (.function d)) :
        d.body.isBlock = true ∧ d.body.WellShaped := by
      cases hd with
      | self => exact hself d rfl
      | part hu hd =>
        obtain ⟨-, hblock, hbody⟩ := hparts _ hu
        exact ⟨hblock d hd, hbody d hd⟩
    refine ⟨shaped_iff.2 ⟨hfits, fun u hu => ?_⟩, fun d hd => (hfunction d hd).1,
      fun d hd => (hfunction d hd).2⟩
    obtain ⟨hshaped, -, -⟩ := hparts u hu
    exact hshaped

/-- The body of a function literal in a well-shaped expression. -/
theorem Expr.WellShaped.body {e : Expr} (h : e.WellShaped) {d : FunctionDef}
    (hd : .function d ∈ e.flatten) : d.body.isBlock = true ∧ d.body.WellShaped := by
  obtain ⟨line, -, hblock, hbody⟩ := h
  rw [Tree.flatten_lower] at hd
  have hhas := Tree.function_mem_code hd
  exact ⟨hblock d hhas, hbody d hhas⟩

end HeapScript
