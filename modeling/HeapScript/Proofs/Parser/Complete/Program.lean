import HeapScript.Proofs.Parser.Complete.Statement

/-!
# Printed programs are read back

Whatever is printed is read as the same program again, up to positions.

* `ReadsBack` says so of statements with fewer tokens than a bound; the induction is
  over the bound. What is read has positions of its own, so each lemma gives another
  tree, which is the same without them.
* `tree_back` is for expressions: the function literals in them are read first.
* `parse_print` is for whole programs.
-/

namespace HeapScript

namespace Parser

/-- Well-shaped statements printed with fewer tokens than the bound are read back. -/
def ReadsBack (short : Stmt → Bool) (n : Nat) : Prop :=
  ∀ (s : Stmt) (used : List Token), s.WellShaped → used.map Token.kind = s.print short →
    used.length < n → ∃ s', s'.unplaced = s.unplaced ∧ Reads s' used

section Level

variable {short : Stmt → Bool} {n : Nat} {used : List Token}

/-! ## Expressions -/

section Below

variable (hn : ReadsBack short n)

include hn

theorem function_back {d : FunctionDef} (hblock : d.body.isBlock = true)
    (hd : d.body.WellShaped) (l : Nat)
    (h : used.map Token.kind = .delimiter .lparen :: (printParams d.params ++
      .delimiter .rparen :: (printResult d.returnType d.returnsRef ++ d.body.print short)))
    (hlt : used.length ≤ n) :
    ∃ body, body.unplaced = d.body.unplaced ∧
      ReadsFunction grammar { d with body, line := l } used := by
  obtain ⟨a, _, rfl, ha, h⟩ := List.map_eq_cons_iff.1 h
  obtain ⟨ps, _, rfl, hps, h⟩ := List.map_eq_append_iff.1 h
  obtain ⟨b, _, rfl, hb, h⟩ := List.map_eq_cons_iff.1 h
  obtain ⟨result, block, rfl, hresult, hbody⟩ := List.map_eq_append_iff.1 h
  simp only [List.length_cons, List.length_append] at hlt
  obtain ⟨body, hsame, hreads⟩ := hn d.body block hd hbody (by omega)
  obtain ⟨ss, line, heq⟩ := Stmt.eq_block_of_isBlock hblock
  have hclosed : body.endsOpen = false := by
    rw [← body.endsOpen_unplaced, hsame, d.body.endsOpen_unplaced, heq]
    rfl
  have hbrace (rest : List Token) : at? (delim .lbrace) (block ++ rest) = true := by
    rw [heq, Stmt.print] at hbody
    obtain ⟨tok, r, rfl, htok, -⟩ := List.map_eq_cons_iff.1 hbody
    exact at?_iff.2 htok
  refine ⟨body, hsame, at?_iff.2 ha, fun k hk rest => ?_⟩
  simp only [List.length_cons, List.length_append] at hk
  have hstmt := hreads.stmt k (by omega) rest (by simp [hclosed])
  simpa using functionRest_ok (d := d) ha hps hb hresult (hbrace rest) hstmt (by omega)

theorem literal_back {d : FunctionDef} (hblock : d.body.isBlock = true) (hd : d.body.WellShaped)
    (h : used.map Token.kind = d.print short none) (hlt : used.length ≤ n) :
    ∃ d', d'.unplaced = d.unplaced ∧ Literal grammar d' used := by
  rw [FunctionDef.print_eq] at h
  obtain ⟨cs, _, rfl, hcs, h⟩ := List.map_eq_append_iff.1 h
  obtain ⟨func, _, rfl, hfunc, h⟩ := List.map_eq_cons_iff.1 h
  simp only [List.length_cons, List.length_append] at hlt
  obtain ⟨body, hsame, hreads⟩ :=
    function_back hn hblock hd (front (cs ++ [func])).line h (by omega)
  exact ⟨_, by cases d; simp_all [FunctionDef.unplaced], hreads.literal hcs hfunc rfl⟩

theorem tree_back {t : Tree} (ht : t.WellShaped) (h : used.map Token.kind = t.print short)
    (hlt : used.length ≤ n) :
    ∃ t', t'.mapFunctions .unplaced = t.mapFunctions .unplaced ∧ Spelled t' used := by
  obtain ⟨hshaped, hblock, hbody⟩ := ht
  obtain ⟨t', ht', hspells⟩ := Tree.respelled (f := .unplaced) (S := Literal grammar)
    (spells_of_print h hlt) fun d lit hd hlit =>
      literal_back hn (hblock d hd) (hbody d hd) hlit.1 hlit.2
  refine ⟨t', ht', ?_, hspells⟩
  rw [← Tree.shaped_mapFunctions_iff, ht', Tree.shaped_mapFunctions_iff]
  exact hshaped

theorem expr_back {e : Expr} (he : e.WellShaped) (h : used.map Token.kind = e.print short)
    (hlt : used.length ≤ n) :
    ∃ t : Tree, (∀ l, (t.lower l).unplaced = e.unplaced) ∧ Spelled t used := by
  obtain ⟨line, ht⟩ := he
  rw [Tree.print_lower] at h
  obtain ⟨t', ht', hspelled⟩ := tree_back hn ht h hlt
  refine ⟨t', fun l => ?_, hspelled⟩
  rw [Tree.unplaced_lower, ht', Tree.unplaced_lower]

theorem expr?_back {e : Option Expr} (he : ∀ x ∈ e, x.WellShaped)
    (h : used.map Token.kind = printExpr? short e) (hlt : used.length ≤ n) :
    ∃ e', unplacedExpr? e' = unplacedExpr? e ∧ Spelled? e' used := by
  cases e with
  | none =>
    obtain rfl := List.map_eq_nil_iff.1 h
    exact ⟨none, rfl, .none⟩
  | some e =>
    obtain ⟨t, ht, hspelled⟩ := expr_back hn (he e rfl) h hlt
    exact ⟨_, by rw [unplacedExpr?, unplacedExpr?, ht], .some hspelled⟩

theorem init_back {e : Option Expr} (he : ∀ x ∈ e, x.WellShaped)
    (h : used.map Token.kind = printInit short e) (hlt : used.length ≤ n) :
    ∃ e', unplacedExpr? e' = unplacedExpr? e ∧ ReadsInit e' used := by
  cases e with
  | none =>
    obtain rfl := List.map_eq_nil_iff.1 h
    exact ⟨none, rfl, .none⟩
  | some e =>
    obtain ⟨tok, u, rfl, htok, hu⟩ := List.map_eq_cons_iff.1 h
    obtain ⟨t, ht, hspelled⟩ := expr_back hn (he e rfl) hu (Nat.le_of_succ_le hlt)
    exact ⟨_, by rw [unplacedExpr?, unplacedExpr?, ht], .some htok hspelled⟩

/-! ## Clauses -/

theorem expression_back {s : Stmt} (hs : s.WellShaped) (hexpr : s.isExpression = true)
    (h : used.map Token.kind = printClause short (some s)) (hlt : used.length ≤ n) :
    ∃ t : Tree, (∀ l, (t.toStmt l).unplaced = s.unplaced) ∧ Spelled t used := by
  -- a statement made of a tree is what the tree is read as
  have htree {t : Tree} (ht : t.WellShaped) (hprint : printClause short (some s) = t.print short)
      (hstmt : (t.toStmt 0).unplaced = s.unplaced) :
      ∃ t' : Tree, (∀ l, (t'.toStmt l).unplaced = s.unplaced) ∧ Spelled t' used := by
    obtain ⟨t', ht', hspelled⟩ := tree_back hn ht (h.trans hprint) hlt
    refine ⟨t', fun l => ?_, hspelled⟩
    rw [Tree.unplaced_toStmt, ht', ← t.unplaced_toStmt, hstmt]
  cases hs with
  | @expr t l line ht hpart =>
    refine htree ht (by rw [printClause, Tree.print_lower]) ?_
    rw [Tree.toStmt_of_assignsPart hpart, Stmt.unplaced, Stmt.unplaced, Tree.unplaced_lower,
      Tree.unplaced_lower]
  | setMember l l' line ht =>
    refine htree ht ?_ ?_
    · simp [printClause, printSetMember, Tree.print_lower, Tree.print, Tree.pieces, Piece.print]
    · simp [Tree.toStmt, Stmt.unplaced, Tree.unplaced_lower]
  | setIndex l l' l'' line ht =>
    refine htree ht ?_ ?_
    · simp [printClause, printSetIndex, Tree.print_lower, Tree.print, Tree.pieces, Piece.print]
    · simp [Tree.toStmt, Stmt.unplaced, Tree.unplaced_lower]
  | _ => cases hexpr

theorem clause_back {s : Stmt} (hs : s.WellShaped)
    (hclause : s.isDecl = true ∨ s.isExpression = true)
    (h : used.map Token.kind = printClause short (some s)) (hlt : used.length ≤ n) :
    ∃ s', s'.unplaced = s.unplaced ∧ Clause s' used := by
  rcases hclause with hdecl | hexpr
  · cases hs with
    | decl flags ty name line hinit =>
      obtain ⟨fs, _, rfl, hfs, h⟩ := List.map_eq_append_iff.1 h
      obtain ⟨t, _, rfl, ht, h⟩ := List.map_eq_append_iff.1 h
      obtain ⟨ident, value, rfl, hident, hvalue⟩ := List.map_eq_cons_iff.1 h
      simp only [List.length_cons, List.length_append] at hlt
      obtain ⟨init, hsame, hreads⟩ := init_back hn hinit hvalue (by omega)
      refine ⟨_, ?_, clause_decl hfs ht hident hreads⟩
      rw [Stmt.unplaced, Stmt.unplaced, hsame]
    | _ => cases hdecl
  · obtain ⟨t, ht, hspelled⟩ := expression_back hn hs hexpr h hlt
    exact ⟨_, ht _, hspelled.clause⟩

/-! ## Statements -/

theorem clause?_back {s : Option Stmt} (hs : ∀ x ∈ s, x.WellShaped)
    (hclause : ∀ x ∈ s, x.isDecl = true ∨ x.isExpression = true)
    (h : used.map Token.kind = printClause short s) (hlt : used.length ≤ n) :
    ∃ s', unplacedStmt? s' = unplacedStmt? s ∧ Clause? s' used := by
  cases s with
  | none =>
    obtain rfl := List.map_eq_nil_iff.1 h
    exact ⟨none, rfl, .none⟩
  | some s =>
    obtain ⟨s', hs', hreads⟩ := clause_back hn (hs s rfl) (hclause s rfl) h hlt
    exact ⟨some s', by rw [unplacedStmt?, unplacedStmt?, hs'], .some hreads⟩

theorem step?_back {s : Option Stmt} (hs : ∀ x ∈ s, x.WellShaped)
    (hexpr : ∀ x ∈ s, x.isExpression = true)
    (h : used.map Token.kind = printClause short s) (hlt : used.length ≤ n) :
    ∃ s', unplacedStmt? s' = unplacedStmt? s ∧ Step? s' used := by
  cases s with
  | none =>
    obtain rfl := List.map_eq_nil_iff.1 h
    exact ⟨none, rfl, .none⟩
  | some s =>
    obtain ⟨t, ht, hspelled⟩ := expression_back hn (hs s rfl) (hexpr s rfl) h hlt
    exact ⟨_, by rw [unplacedStmt?, unplacedStmt?, ht], .some hspelled⟩

theorem stmts_back {ss : List Stmt} (hs : ∀ s ∈ ss, s.WellShaped)
    (h : used.map Token.kind = printStmts short ss) (hlt : used.length < n) :
    ∃ ss', unplacedStmts ss' = unplacedStmts ss ∧ ReadsAll ss' used := by
  induction ss generalizing used with
  | nil =>
    obtain rfl := List.map_eq_nil_iff.1 h
    exact ⟨[], rfl, .nil⟩
  | cons s ss ih =>
    obtain ⟨u, v, rfl, hu, hv⟩ := List.map_eq_append_iff.1 h
    rw [List.length_append] at hlt
    obtain ⟨s', hs', hreads⟩ := hn s u (hs s (by simp)) hu (by omega)
    obtain ⟨ss', hss', hmore⟩ := ih (fun x hx => hs x (by simp [hx])) hv (by omega)
    exact ⟨s' :: ss', by rw [unplacedStmts, unplacedStmts, hs', hss'], .cons hreads hmore⟩

/-- The short spelling of a function definition. -/
theorem definition_back {d : FunctionDef} {name : String} (hblock : d.body.isBlock = true)
    (hd : d.body.WellShaped) (h : used.map Token.kind = d.print short (some name))
    (hlt : used.length ≤ n) :
    ∃ d' l, d'.unplaced = d.unplaced ∧
      Reads (.decl { isConst := true } .func name (some ⟨[.instr (.function d')], l⟩) l) used := by
  rw [FunctionDef.print_eq] at h
  obtain ⟨cs, _, rfl, hcs, h⟩ := List.map_eq_append_iff.1 h
  obtain ⟨func, _, rfl, hfunc, h⟩ := List.map_eq_cons_iff.1 h
  obtain ⟨ident, _, rfl, hident, h⟩ := List.map_eq_cons_iff.1 h
  simp only [List.length_cons, List.length_append] at hlt
  obtain ⟨body, hsame, hreads⟩ :=
    function_back hn hblock hd (front (cs ++ [func])).line h (by omega)
  exact ⟨_, _, by cases d; simp_all [FunctionDef.unplaced], hreads.reads hcs hfunc hident rfl⟩

theorem decl_back {flags : DeclFlags} {ty : Ty} {name : String} {init : Option Expr} {line : Nat}
    (hinit : ∀ e ∈ init, e.WellShaped)
    (h : used.map Token.kind = (Stmt.decl flags ty name init line).print short)
    (hlt : used.length ≤ n) :
    ∃ s', s'.unplaced = (Stmt.decl flags ty name init line).unplaced ∧ Reads s' used := by
  rcases Stmt.print_decl short flags ty name init line with
    hprint | ⟨d, l, rfl, rfl, rfl, hprint⟩
  · rw [hprint] at h
    obtain ⟨u, _, rfl, hu, h⟩ := List.map_eq_append_iff.1 h
    obtain ⟨tok, rfl, htok⟩ := List.map_eq_singleton_iff.1 h
    rw [List.length_append, List.length_singleton] at hlt
    obtain ⟨s', hs', hclause⟩ := clause_back hn (.decl flags ty name line hinit) (.inl rfl) hu
      (by omega)
    exact ⟨s', hs', hclause.reads htok⟩
  · rw [hprint] at h
    obtain ⟨hblock, hbody⟩ := (hinit _ rfl).body (d := d) List.mem_cons_self
    obtain ⟨d', l', hsame, hreads⟩ := definition_back hn hblock hbody h hlt
    refine ⟨_, ?_, hreads⟩
    simp [Stmt.unplaced, unplacedExpr?, Expr.unplaced, unplacedItems, Instr.unplaced, hsame]

theorem expressionStmt_back {s : Stmt} (hs : s.WellShaped) (hexpr : s.isExpression = true)
    (hprint : s.print short = printClause short (some s) ++ [.delimiter .semicolon])
    (h : used.map Token.kind = s.print short) (hlt : used.length ≤ n) :
    ∃ s', s'.unplaced = s.unplaced ∧ Reads s' used := by
  rw [hprint] at h
  obtain ⟨u, _, rfl, hu, h⟩ := List.map_eq_append_iff.1 h
  obtain ⟨tok, rfl, htok⟩ := List.map_eq_singleton_iff.1 h
  rw [List.length_append, List.length_singleton] at hlt
  obtain ⟨s', hs', hclause⟩ := clause_back hn hs (.inr hexpr) hu (by omega)
  exact ⟨s', hs', hclause.reads htok⟩

theorem ifThen_back {cond : Expr} {thenBranch : Stmt} {elseBranch : Option Stmt} {line : Nat}
    (hcond : cond.WellShaped) (hthen : thenBranch.WellShaped)
    (helse : ∀ s ∈ elseBranch, s.WellShaped)
    (hclosed : elseBranch.isSome = true → thenBranch.endsOpen = false)
    (h : used.map Token.kind = (Stmt.ifThen cond thenBranch elseBranch line).print short)
    (hlt : used.length ≤ n) :
    ∃ s', s'.unplaced = (Stmt.ifThen cond thenBranch elseBranch line).unplaced ∧ Reads s' used := by
  rw [Stmt.print] at h
  obtain ⟨word, _, rfl, hword, h⟩ := List.map_eq_cons_iff.1 h
  obtain ⟨a, _, rfl, ha, h⟩ := List.map_eq_cons_iff.1 h
  obtain ⟨u, _, rfl, hu, h⟩ := List.map_eq_append_iff.1 h
  obtain ⟨b, _, rfl, hb, h⟩ := List.map_eq_cons_iff.1 h
  obtain ⟨v, w, rfl, hv, hw⟩ := List.map_eq_append_iff.1 h
  simp only [List.length_cons, List.length_append] at hlt
  obtain ⟨t, ht, hspelled⟩ := expr_back hn hcond hu (by omega)
  obtain ⟨then', hthen', hreads⟩ := hn thenBranch v hthen hv (by omega)
  cases elseBranch with
  | none =>
    obtain rfl := List.map_eq_nil_iff.1 hw
    rw [List.append_nil]
    refine ⟨_, ?_, reads_ifThen hword ha hspelled hb hreads⟩
    simp [Stmt.unplaced, unplacedStmt?, ht, hthen']
  | some elseBranch =>
    obtain ⟨tok, x, rfl, htok, hx⟩ := List.map_eq_cons_iff.1 hw
    rw [List.length_cons] at hlt
    obtain ⟨else', helse', hreads'⟩ := hn elseBranch x (helse _ rfl) hx (by omega)
    have hclosed' : then'.endsOpen = false := by
      rw [← then'.endsOpen_unplaced, hthen', thenBranch.endsOpen_unplaced, hclosed rfl]
    refine ⟨_, ?_, reads_ifThenElse hword ha hspelled hb hreads hclosed' htok hreads'⟩
    simp [Stmt.unplaced, unplacedStmt?, ht, hthen', helse']

theorem whileLoop_back {cond : Expr} {body : Stmt} {line : Nat} (hcond : cond.WellShaped)
    (hbody : body.WellShaped)
    (h : used.map Token.kind = (Stmt.whileLoop cond body line).print short)
    (hlt : used.length ≤ n) :
    ∃ s', s'.unplaced = (Stmt.whileLoop cond body line).unplaced ∧ Reads s' used := by
  rw [Stmt.print] at h
  obtain ⟨word, _, rfl, hword, h⟩ := List.map_eq_cons_iff.1 h
  obtain ⟨a, _, rfl, ha, h⟩ := List.map_eq_cons_iff.1 h
  obtain ⟨u, _, rfl, hu, h⟩ := List.map_eq_append_iff.1 h
  obtain ⟨b, v, rfl, hb, hv⟩ := List.map_eq_cons_iff.1 h
  simp only [List.length_cons, List.length_append] at hlt
  obtain ⟨t, ht, hspelled⟩ := expr_back hn hcond hu (by omega)
  obtain ⟨body', hbody', hreads⟩ := hn body v hbody hv (by omega)
  refine ⟨_, ?_, reads_whileLoop hword ha hspelled hb hreads⟩
  simp [Stmt.unplaced, ht, hbody']

theorem forLoop_back {init step : Option Stmt} {cond : Option Expr} {body : Stmt} {line : Nat}
    (hinit : ∀ s ∈ init, s.WellShaped)
    (hclause : ∀ s ∈ init, s.isDecl = true ∨ s.isExpression = true)
    (hcond : ∀ e ∈ cond, e.WellShaped) (hstep : ∀ s ∈ step, s.WellShaped)
    (hexpr : ∀ s ∈ step, s.isExpression = true) (hbody : body.WellShaped)
    (h : used.map Token.kind = (Stmt.forLoop init cond step body line).print short)
    (hlt : used.length ≤ n) :
    ∃ s', s'.unplaced = (Stmt.forLoop init cond step body line).unplaced ∧ Reads s' used := by
  rw [Stmt.print] at h
  obtain ⟨word, _, rfl, hword, h⟩ := List.map_eq_cons_iff.1 h
  obtain ⟨a, _, rfl, ha, h⟩ := List.map_eq_cons_iff.1 h
  obtain ⟨u, _, rfl, hu, h⟩ := List.map_eq_append_iff.1 h
  obtain ⟨b, _, rfl, hb, h⟩ := List.map_eq_cons_iff.1 h
  obtain ⟨v, _, rfl, hv, h⟩ := List.map_eq_append_iff.1 h
  obtain ⟨c, _, rfl, hc, h⟩ := List.map_eq_cons_iff.1 h
  obtain ⟨w, _, rfl, hw, h⟩ := List.map_eq_append_iff.1 h
  obtain ⟨d, x, rfl, hd, hx⟩ := List.map_eq_cons_iff.1 h
  simp only [List.length_cons, List.length_append] at hlt
  obtain ⟨init', hinit', hfirst⟩ := clause?_back hn hinit hclause hu (by omega)
  obtain ⟨cond', hcond', hspelled⟩ := expr?_back hn hcond hv (by omega)
  obtain ⟨step', hstep', hlast⟩ := step?_back hn hstep hexpr hw (by omega)
  obtain ⟨body', hbody', hreads⟩ := hn body x hbody hx (by omega)
  refine ⟨_, ?_, reads_forLoop hword ha hfirst hb hspelled hc hlast hd hreads⟩
  simp [Stmt.unplaced, hinit', hcond', hstep', hbody']

theorem block_back {body : List Stmt} {line : Nat} (hbody : ∀ s ∈ body, s.WellShaped)
    (h : used.map Token.kind = (Stmt.block body line).print short) (hlt : used.length ≤ n) :
    ∃ s', s'.unplaced = (Stmt.block body line).unplaced ∧ Reads s' used := by
  rw [Stmt.print] at h
  obtain ⟨a, _, rfl, ha, h⟩ := List.map_eq_cons_iff.1 h
  obtain ⟨u, _, rfl, hu, h⟩ := List.map_eq_append_iff.1 h
  obtain ⟨b, rfl, hb⟩ := List.map_eq_singleton_iff.1 h
  simp only [List.length_cons, List.length_append] at hlt
  obtain ⟨body', hbody', hreads⟩ := stmts_back hn hbody hu (by omega)
  exact ⟨_, by rw [Stmt.unplaced, Stmt.unplaced, hbody'], reads_block ha hreads hb⟩

theorem returnValue_back {value : Option Expr} {line : Nat} (hvalue : ∀ e ∈ value, e.WellShaped)
    (h : used.map Token.kind = (Stmt.returnValue value line).print short) (hlt : used.length ≤ n) :
    ∃ s', s'.unplaced = (Stmt.returnValue value line).unplaced ∧ Reads s' used := by
  rw [Stmt.print] at h
  obtain ⟨word, _, rfl, hword, h⟩ := List.map_eq_cons_iff.1 h
  obtain ⟨u, _, rfl, hu, h⟩ := List.map_eq_append_iff.1 h
  obtain ⟨tok, rfl, htok⟩ := List.map_eq_singleton_iff.1 h
  simp only [List.length_cons, List.length_append] at hlt
  obtain ⟨e, he, hspelled⟩ := expr?_back hn hvalue hu (by omega)
  exact ⟨_, by rw [Stmt.unplaced, Stmt.unplaced, he], reads_returnValue hword hspelled htok⟩

omit hn in
theorem jump_back {s : Stmt} {k : Keyword} {jump : Nat → Stmt}
    (hjump : k = .breakLoop ∧ jump = .breakLoop ∨ k = .continueLoop ∧ jump = .continueLoop)
    (hs : ∀ l, (jump l).unplaced = s.unplaced)
    (h : used.map Token.kind = [.word k, .delimiter .semicolon]) :
    ∃ s', s'.unplaced = s.unplaced ∧ Reads s' used := by
  obtain ⟨word, _, rfl, hword, h⟩ := List.map_eq_cons_iff.1 h
  obtain ⟨tok, rfl, htok⟩ := List.map_eq_singleton_iff.1 h
  refine ⟨jump word.line, hs _, reads_jump ?_ htok⟩
  rcases hjump with ⟨rfl, rfl⟩ | ⟨rfl, rfl⟩
  · exact .inl ⟨hword, rfl⟩
  · exact .inr ⟨hword, rfl⟩

/-- One token more: the parts of a statement are shorter than it. -/
theorem readsBack_succ : ReadsBack short (n + 1) := by
  intro s used hs h hlt
  have hlt := Nat.le_of_lt_succ hlt
  cases hs with
  | expr l line ht hpart =>
    exact expressionStmt_back hn (.expr l line ht hpart) rfl (by rw [Stmt.print, printClause]) h hlt
  | setMember l l' line ht =>
    exact expressionStmt_back hn (.setMember l l' line ht) rfl (by rw [Stmt.print, printClause]) h
      hlt
  | setIndex l l' l'' line ht =>
    exact expressionStmt_back hn (.setIndex l l' l'' line ht) rfl (by rw [Stmt.print, printClause])
      h hlt
  | decl flags ty name line hinit => exact decl_back hn hinit h hlt
  | classDef c line =>
    rw [Stmt.print] at h
    refine ⟨_, ?_, reads_classDef h⟩
    rfl
  | ifThen line hcond hthen helse hclosed => exact ifThen_back hn hcond hthen helse hclosed h hlt
  | whileLoop line hcond hbody => exact whileLoop_back hn hcond hbody h hlt
  | forLoop line hinit hclause hcond hstep hexpr hbody =>
    exact forLoop_back hn hinit hclause hcond hstep hexpr hbody h hlt
  | block line hbody => exact block_back hn hbody h hlt
  | breakLoop line => exact jump_back (.inl ⟨rfl, rfl⟩) (fun _ => rfl) (by rw [h, Stmt.print])
  | continueLoop line => exact jump_back (.inr ⟨rfl, rfl⟩) (fun _ => rfl) (by rw [h, Stmt.print])
  | returnValue line hvalue => exact returnValue_back hn hvalue h hlt
  | nop line =>
    rw [Stmt.print] at h
    obtain ⟨tok, rfl, htok⟩ := List.map_eq_singleton_iff.1 h
    refine ⟨_, ?_, reads_nop htok⟩
    rfl

end Below

end Level

theorem readsBack (short : Stmt → Bool) : ∀ n, ReadsBack short n
  | 0 => fun _ _ _ _ hlt => absurd hlt (Nat.not_lt_zero _)
  | n + 1 => readsBack_succ (readsBack short n)

end Parser

/-- A well-shaped program that is printed, with each function definition in either
spelling, is read as the same program, up to positions. -/
theorem parse_print (short : Stmt → Bool) (name : String) {body : List Stmt} {tokens : List Token}
    (hbody : ∀ s ∈ body, s.WellShaped)
    (htokens : tokens.map Token.kind = printStmts short body ++ [.eof]) :
    ∃ p, parse name tokens = .ok p ∧ p.sourceName = name ∧
      p.statements.map Stmt.unplaced = body.map Stmt.unplaced := by
  obtain ⟨used, _, rfl, hused, h⟩ := List.map_eq_append_iff.1 htokens
  obtain ⟨eof, rfl, heof⟩ := List.map_eq_singleton_iff.1 h
  obtain ⟨body', hsame, hreads⟩ :=
    Parser.stmts_back (Parser.readsBack short (used.length + 1)) hbody hused (Nat.lt_succ_self _)
  have hlength : (used ++ [eof]).length = used.length + 1 := List.length_append
  have hstatements := hreads.statements heof (k := (used ++ [eof]).length + 1)
    (n := (used ++ [eof]).length + 1) (by omega) (by omega)
  refine ⟨⟨name, body'⟩, ?_, rfl, ?_⟩
  · rw [parse, hstatements]
  · rw [← unplacedStmts_eq_map, ← unplacedStmts_eq_map, hsame]

/-- `closure func (ref num[] a) { return a[i]; }` -/
def elementOf : FunctionDef where
  params := [⟨"a", .array .num, true⟩]
  returnType := .var
  returnsRef := false
  captures := true
  body := .block [.returnValue (some ((Tree.index (.ident "a") (.ident "i")).lower 2)) 2] 1
  line := 1

/-- `if (x) closure func g(ref num[] a) { return a[i]; } else o.m = f;` -/
def branching : List Stmt :=
  [.ifThen ((Tree.ident "x").lower 1)
    (.decl { isConst := true } .func "g" (some ((Tree.function elementOf).lower 1)) 1)
    (some (.setMember ((Tree.ident "o").lower 3) "m" .assign ((Tree.ident "f").lower 3) 3)) 1]

/-- The tokens of `branching`, further down in a file. -/
def branchingTokens : List Token :=
  [⟨.word .ifThen, "if", 7⟩, ⟨.delimiter .lparen, "(", 7⟩, ⟨.ident "x", "x", 7⟩,
    ⟨.delimiter .rparen, ")", 7⟩, ⟨.word .closure, "closure", 7⟩, ⟨.word .func, "func", 7⟩,
    ⟨.ident "g", "g", 7⟩, ⟨.delimiter .lparen, "(", 7⟩, ⟨.word .ref, "ref", 7⟩,
    ⟨.ident "num", "num", 7⟩, ⟨.delimiter .lbracket, "[", 7⟩, ⟨.delimiter .rbracket, "]", 7⟩,
    ⟨.ident "a", "a", 7⟩, ⟨.delimiter .rparen, ")", 7⟩, ⟨.delimiter .lbrace, "\x7b", 7⟩,
    ⟨.word .returnValue, "return", 8⟩, ⟨.ident "a", "a", 8⟩, ⟨.delimiter .lbracket, "[", 8⟩,
    ⟨.ident "i", "i", 8⟩, ⟨.delimiter .rbracket, "]", 8⟩, ⟨.delimiter .semicolon, ";", 8⟩,
    ⟨.delimiter .rbrace, "\x7d", 9⟩, ⟨.word .elseThen, "else", 9⟩, ⟨.ident "o", "o", 9⟩,
    ⟨.delimiter .dot, ".", 9⟩, ⟨.ident "m", "m", 9⟩, ⟨.symbol (.assign .assign), "=", 9⟩,
    ⟨.ident "f", "f", 9⟩, ⟨.delimiter .semicolon, ";", 9⟩, ⟨.eof, "", 9⟩]

theorem wellShaped_branching : ∀ s ∈ branching, s.WellShaped := by
  have hident (name : String) : (Tree.ident name).WellShaped :=
    Tree.wellShaped_iff.2 ⟨trivial, by simp, by simp [Tree.parts]⟩
  have hbody : elementOf.body.WellShaped := by
    have hindex : (Tree.index (.ident "a") (.ident "i")).WellShaped :=
      Tree.wellShaped_iff.2 ⟨Nat.le_refl 13, by simp, by simp [Tree.parts, hident]⟩
    refine .block 1 fun s hs => ?_
    cases List.mem_singleton.1 hs
    exact .returnValue 2 fun e he => by
      cases he
      exact .lower 2 hindex
  have hfunction : (Tree.function elementOf).WellShaped :=
    Tree.wellShaped_iff.2 ⟨trivial, by rintro _ ⟨⟩; exact ⟨rfl, hbody⟩, by simp [Tree.parts]⟩
  have hmember : (Tree.member (.ident "o") "m").WellShaped :=
    Tree.wellShaped_iff.2 ⟨Nat.le_refl 13, by simp, by simp [Tree.parts, hident]⟩
  have hassign : (Tree.assign .assign (.member (.ident "o") "m") (.ident "f")).WellShaped :=
    Tree.wellShaped_iff.2 ⟨Nat.zero_lt_succ 12, by simp, by simp [Tree.parts, hident, hmember]⟩
  intro s hs
  cases List.mem_singleton.1 hs
  refine .ifThen 1 (.lower 1 (hident "x")) (.decl _ _ _ 1 ?_) ?_ fun _ => rfl
  · rintro e ⟨⟩
    exact .lower 1 hfunction
  · rintro s ⟨⟩
    exact .setMember 3 3 3 hassign

/-- The branches stand on other lines than in the program that was printed. -/
theorem parse_print_branching :
    ∃ p, parse "main" branchingTokens = .ok p ∧ p.sourceName = "main" ∧
      p.statements.map Stmt.unplaced = branching.map Stmt.unplaced :=
  parse_print (fun _ => true) "main" wellShaped_branching rfl

end HeapScript
