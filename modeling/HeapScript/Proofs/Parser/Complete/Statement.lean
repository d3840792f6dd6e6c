import HeapScript.Proofs.Parser.Complete.Declaration
import HeapScript.Proofs.Program.WellShaped

/-!
# Statements are read back

What is read of the tokens of each kind of statement, given what is read of its parts.

* `Spelled` is for expressions, `Clause` for declarations and for expressions as
  statements, `Reads` for statements.
* `reads_ifThen` and its like, one for each kind of statement.
-/

namespace HeapScript.Parser

variable {used rest : List Token}

/-- Whether a token can stand only behind a statement. -/
def endsStmts : TokenKind → Bool
  | .symbol (.delimiter .rbrace) | .symbol (.keyword .elseThen) | .eof => true
  | _ => false

/-- At every level that is high enough, the tokens are read as the statement. An `else`
behind them must not be one that it would take for its own. -/
structure Reads (s : Stmt) (used : List Token) : Prop where
  begins : endsStmts (front used).kind = false
  stmt : ∀ k, used.length ≤ k → ∀ rest,
    (s.endsOpen = true → at? (kw .elseThen) rest = false) →
    (grammar k).stmt (used ++ rest) = .ok (s, rest)

theorem Reads.eq_cons {s : Stmt} (h : Reads s used) :
    ∃ tok r, used = tok :: r ∧ endsStmts tok.kind = false := by
  cases used with
  | nil => cases h.begins
  | cons tok r => exact ⟨tok, r, rfl, h.begins⟩

theorem reads_of_statement {s : Stmt} (hbegins : endsStmts (front used).kind = false)
    (h : ∀ m, used.length ≤ m + 1 → ∀ rest,
      (s.endsOpen = true → at? (kw .elseThen) rest = false) →
      statement (grammar m) m (used ++ rest) = .ok (s, rest)) : Reads s used := by
  refine ⟨hbegins, fun k hk rest hrest => ?_⟩
  cases k with
  | zero =>
    obtain rfl := List.length_eq_zero_iff.1 (Nat.le_zero.1 hk)
    cases hbegins
  | succ m => exact h m hk rest hrest

/-! ## Expressions -/

/-- The tokens are read as the tree. -/
structure Spelled (t : Tree) (used : List Token) : Prop where
  shaped : t.Shaped
  spells : Spells (Literal grammar) t.pieces used

/-- Nothing of the kind that goes on with an expression follows. -/
abbrev Stops (rest : List Token) : Prop := continues (front rest).kind = false

theorem stops_of_at {d : Delimiter} (h : at? (delim d) rest = true)
    (hd : continues (.symbol (delim d)) = false) : Stops rest := by
  rw [Stops, at?_iff.1 h, hd]

namespace Spelled

variable {t : Tree} (h : Spelled t used)

include h

theorem starts (rest : List Token) : starts (front (used ++ rest)).kind = true :=
  starts_front h.shaped h.spells rest

theorem front_append (rest : List Token) : front (used ++ rest) = front used := by
  obtain ⟨tok, r, rfl⟩ := List.exists_cons_of_ne_nil (List.length_pos_iff.1 (length_pos h.spells))
  rfl

theorem expression {k : Nat} (hk : used.length ≤ k) (hrest : Stops rest) :
    expression (grammar k) k (used ++ rest) = .ok (t, rest) :=
  expression_ok (readsBelow (fun _ _ => rfl) k) h.shaped h.spells hk hrest

theorem lowered {k : Nat} (hk : used.length ≤ k) (hrest : Stops rest) :
    lowered (grammar k) k (used ++ rest) = .ok (t.lower (front used).line, rest) := by
  rw [Parser.lowered, bind_line, bind_ok (h.expression hk hrest), h.front_append]
  rfl

theorem expressionStmt {k : Nat} (hk : used.length ≤ k) (hrest : Stops rest) :
    expressionStmt (grammar k) k (used ++ rest) = .ok (t.toStmt (front used).line, rest) := by
  rw [Parser.expressionStmt, bind_line, bind_ok (h.expression hk hrest), h.front_append]
  rfl

theorem condition {k : Nat} (hk : used.length ≤ k) {a b : Token}
    (ha : a.kind = .symbol (delim .lparen)) (hb : b.kind = .symbol (delim .rparen)) :
    condition (grammar k) k (a :: (used ++ b :: rest)) = .ok (t.lower (front used).line, rest) := by
  have hstop : Stops (b :: rest) := stops_of_at (at?_iff.2 hb) rfl
  rw [Parser.condition, bind_ok (expect_cons ha), bind_ok (h.lowered hk hstop),
    bind_ok (expect_cons hb)]
  rfl

end Spelled

/-- The tokens are read as the expression, or there are none and it is missing. -/
inductive Spelled? : Option Expr → List Token → Prop
  | none : Spelled? none []
  | some {t : Tree} {used : List Token} : Spelled t used →
    Spelled? (some (t.lower (front used).line)) used

theorem Spelled?.unlessAt {e : Option Expr} (h : Spelled? e used) {k : Nat} (hk : used.length ≤ k)
    (hrest : at? (delim .semicolon) rest = true) :
    unlessAt (delim .semicolon) (lowered (grammar k) k) (used ++ rest) = .ok (e, rest) := by
  cases h with
  | none => exact unlessAt_none hrest
  | some h =>
    exact unlessAt_some (not_at_of_test Parser.starts (h.starts rest) rfl)
      (h.lowered hk (stops_of_at hrest rfl))

/-! ## Declarations and expressions as statements -/

/-- Whether a token can be the first of a declaration or an expression. -/
def beginsClause (k : TokenKind) : Bool :=
  starts k || (flag? k).isSome || (typeName? k).isSome

theorem endsStmts_of_beginsClause {k : TokenKind} (h : beginsClause k = true) :
    endsStmts k = false := by
  rw [endsStmts.eq_def]
  split
  case h_4 => rfl
  all_goals cases h

theorem statement_of_beginsClause {G : Grammar} {n : Nat} {toks : List Token}
    (h : beginsClause (front toks).kind = true) :
    statement G n toks =
      if atClassDefinition toks then classDefinition n toks
      else if atFunctionDefinition toks then functionDefinition G n toks
      else (do let s ← simple G n; expect (delim .semicolon); return s : Parser Stmt) toks := by
  rw [statement.eq_def]
  split
  case h_9 => rfl
  all_goals
    rename_i heq
    rw [heq] at h
    cases h

theorem beginsClause_of_header {toks : List Token} (h : Header toks) :
    beginsClause (front toks).kind = true := by
  rw [beginsClause]
  cases h with
  | flag hflag => simp [hflag]
  | array hkind _ _ => simp [hkind]
  | named hkind _ _ _ => simp [hkind]

/-- In front of a semicolon, the tokens are read as a statement without its terminator. -/
structure Clause (s : Stmt) (used : List Token) : Prop where
  simple : ∀ k, used.length ≤ k → ∀ rest, at? (delim .semicolon) rest = true →
    simple (grammar k) k (used ++ rest) = .ok (s, rest)
  begins : ∀ rest, at? (delim .semicolon) rest = true →
    beginsClause (front (used ++ rest)).kind = true
  isClass : ∀ rest, at? (delim .semicolon) rest = true → atClassDefinition (used ++ rest) = false
  isFunction : ∀ rest, at? (delim .semicolon) rest = true →
    atFunctionDefinition (used ++ rest) = false

theorem Spelled.clause {t : Tree} (h : Spelled t used) :
    Clause (t.toStmt (front used).line) used := by
  have hopening {rest : List Token} (hrest : at? (delim .semicolon) rest = true) :
      Opening (used ++ rest) := by
    refine opening h.shaped h.spells ⟨?_, .inl ?_⟩
    · rw [at?_iff.1 hrest]
      rfl
    · rw [at?, at?_iff.1 hrest]
      rfl
  refine ⟨fun k hk rest hrest => ?_, fun rest _ => by simp [beginsClause, h.starts rest],
    fun rest hrest => atClassDefinition_of_opening (hopening hrest),
    fun rest hrest => atFunctionDefinition_of_opening (hopening hrest)⟩
  rw [Parser.simple, if_neg (by rw [atDeclaration_of_opening (hopening hrest)]; rintro ⟨⟩)]
  exact h.expressionStmt hk (stops_of_at hrest rfl)

/-- What is read behind the name in a declaration. -/
inductive ReadsInit : Option Expr → List Token → Prop
  | none : ReadsInit none []
  | some {tok : Token} {t : Tree} {used : List Token} : tok.kind = .symbol (.assign .assign) →
    Spelled t used → ReadsInit (some (t.lower (front used).line)) (tok :: used)

theorem ReadsInit.behind {init : Option Expr} (h : ReadsInit init used) {k : Nat}
    (hk : used.length ≤ k) (hrest : Stops rest) :
    behind (.assign .assign) (lowered (grammar k) k) (used ++ rest) = .ok (init, rest) := by
  cases h with
  | none => exact behind_none (not_at_of_test continues hrest rfl)
  | some htok h => exact behind_some htok (h.lowered (Nat.le_of_succ_le hk) hrest)

theorem ReadsInit.not_at {init : Option Expr} (h : ReadsInit init used) {d : Delimiter}
    (hrest : at? (delim .semicolon) rest = true) (hd : d ≠ .semicolon) :
    at? (delim d) (used ++ rest) = false := by
  cases h with
  | none =>
    rw [List.nil_append, at?, at?_iff.1 hrest]
    simpa [TokenKind.isSymbol] using hd.symm
  | some htok _ => exact not_at_cons htok (by rintro ⟨⟩)

theorem clause_decl {f : DeclFlags} {t : Ty} {x : String} {init : Option Expr}
    {fs ty value : List Token} {ident : Token} (hfs : fs.map Token.kind = f.print)
    (hty : ty.map Token.kind = t.print) (hident : ident.kind = .ident x)
    (hvalue : ReadsInit init value) :
    Clause (.decl f t x init (front (fs ++ (ty ++ ident :: value))).line)
      (fs ++ (ty ++ ident :: value)) := by
  have hheader {rest : List Token} (hrest : at? (delim .semicolon) rest = true) :
      Header (fs ++ (ty ++ ident :: value) ++ rest) := by
    simp only [List.append_assoc, List.cons_append]
    exact header hfs hty hident (hvalue.not_at hrest nofun) (hvalue.not_at hrest nofun)
  refine ⟨fun k hk rest hrest => ?_, fun rest hrest => beginsClause_of_header (hheader hrest),
    fun rest hrest => atClassDefinition_of_header (hheader hrest),
    fun rest hrest => atFunctionDefinition_of_header (hheader hrest)⟩
  simp only [List.length_append, List.length_cons] at hk
  have hfront : front (fs ++ (ty ++ ident :: value) ++ rest) =
      front (fs ++ (ty ++ ident :: value)) := by
    cases fs <;> cases ty <;> rfl
  have hflags : flags {} (fs ++ (ty ++ ident :: (value ++ rest))) =
      (f, ty ++ ident :: (value ++ rest)) := flags_ok hfs (flag?_type hty _)
  have htype : type (ty ++ ident :: (value ++ rest)) = .ok (t, ident :: (value ++ rest)) :=
    type_ok hty (not_at_cons hident nofun)
  have hinit := hvalue.behind (k := k) (by omega) (stops_of_at hrest rfl)
  rw [Parser.simple, if_pos (atDeclaration_of_header (hheader hrest)), declaration, bind_line,
    hfront]
  simp only [List.append_assoc, List.cons_append]
  rw [bind_ok (congrArg Except.ok hflags), bind_ok htype, bind_ok (expectIdent_cons hident),
    bind_ok hinit]
  rfl

/-- A clause with its semicolon is a statement. -/
theorem Clause.reads {s : Stmt} (h : Clause s used) {tok : Token}
    (htok : tok.kind = .symbol (delim .semicolon)) : Reads s (used ++ [tok]) := by
  have hrest (rest : List Token) : at? (delim .semicolon) (tok :: rest) = true := at?_iff.2 htok
  have hbegins := endsStmts_of_beginsClause (h.begins _ (hrest []))
  refine reads_of_statement hbegins fun m hm rest _ => ?_
  rw [List.length_append, List.length_singleton] at hm
  rw [List.append_assoc, List.singleton_append, statement_of_beginsClause (h.begins _ (hrest _)),
    h.isClass _ (hrest _), h.isFunction _ (hrest _)]
  simp only [Bool.false_eq_true, if_false]
  rw [bind_ok (h.simple m (by omega) _ (hrest _)), bind_ok (expect_cons htok)]
  rfl

/-! ## Definitions -/

theorem reads_classDef {c : ClassDef}
    (h : used.map Token.kind = c.print ++ [.delimiter .semicolon]) :
    Reads (.classDef { c with line := (front used).line } (front used).line) used := by
  obtain ⟨word, r, rfl, hword, h₁⟩ := List.map_eq_cons_iff.1 h
  obtain ⟨name, r₁, rfl, hname, h₂⟩ := List.map_eq_cons_iff.1 h₁
  obtain ⟨brace, r₂, rfl, hbrace, -⟩ := List.map_eq_cons_iff.1 h₂
  refine reads_of_statement (by rw [front_cons, hword]; rfl) fun m hm rest _ => ?_
  have hat : atClassDefinition (word :: name :: brace :: r₂ ++ rest) = true := by
    simp [atClassDefinition, at?, kindAt, hword, hname, hbrace, TokenKind.isSymbol, isIdent]
  rw [statement_of_beginsClause (by rw [List.cons_append, front_cons, hword]; rfl), if_pos hat]
  exact classDefinition_ok h hm

/-- The front of a function definition. -/
theorem definition_lookahead {captures : Bool} {cs : List Token} {func ident : Token}
    {name : String} (hcs : cs.map Token.kind = printWord .closure captures)
    (hfunc : func.kind = .symbol (kw .func))
    (hident : ident.kind = .ident name) (hopens : at? (delim .lparen) used = true)
    (rest : List Token) :
    beginsClause (front (cs ++ func :: ident :: used ++ rest)).kind = true ∧
      atClassDefinition (cs ++ func :: ident :: used ++ rest) = false ∧
      atFunctionDefinition (cs ++ func :: ident :: used ++ rest) = true := by
  obtain ⟨paren, hused, hparen⟩ := eq_cons_of_front (at?_iff.1 hopens) nofun
  rw [hused]
  cases captures with
  | true =>
    obtain ⟨closure, rfl, hclosure⟩ := List.map_eq_singleton_iff.1 hcs
    refine ⟨?_, ?_, ?_⟩
    · simp [hclosure, beginsClause, starts, startsOperand]
    · simp [atClassDefinition, at?, hclosure, TokenKind.isSymbol]
    · simp [atFunctionDefinition, at?, kindAt, hclosure, hfunc, hident, hparen, TokenKind.isSymbol,
        isIdent]
  | false =>
    obtain rfl := List.map_eq_nil_iff.1 hcs
    refine ⟨?_, ?_, ?_⟩
    · simp [hfunc, beginsClause, starts, startsOperand]
    · simp [atClassDefinition, at?, hfunc, TokenKind.isSymbol]
    · simp [atFunctionDefinition, at?, kindAt, hfunc, hident, hparen, TokenKind.isSymbol, isIdent]

theorem ReadsFunction.reads {d : FunctionDef} (h : ReadsFunction grammar d used) {cs : List Token}
    {func ident : Token} {name : String} (hcs : cs.map Token.kind = printWord .closure d.captures)
    (hfunc : func.kind = .symbol (kw .func)) (hident : ident.kind = .ident name)
    (hline : d.line = (front (cs ++ [func])).line) :
    Reads (.decl { isConst := true } .func name (some ⟨[.instr (.function d)], d.line⟩) d.line)
      (cs ++ func :: ident :: used) := by
  have hlook (rest : List Token) := definition_lookahead hcs hfunc hident h.opens rest
  refine reads_of_statement ?_ fun m hm rest _ => ?_
  · have hbegins := (hlook []).1
    rw [List.append_nil] at hbegins
    exact endsStmts_of_beginsClause hbegins
  · obtain ⟨hbegins, hclass, hfunction⟩ := hlook rest
    have hfront : (front (cs ++ func :: ident :: (used ++ rest))).line = d.line := by
      rw [hline]
      cases cs <;> rfl
    have hclosure : at? (kw .closure) (func :: ident :: (used ++ rest)) = false :=
      not_at_cons hfunc nofun
    simp only [List.length_append, List.length_cons] at hm
    rw [statement_of_beginsClause hbegins, hclass, hfunction]
    simp only [Bool.false_eq_true, if_false, if_true, List.append_assoc, List.cons_append]
    rw [functionDefinition, bind_line, hfront, bind_ok (eat_printWord hcs hclosure),
      bind_ok (expect_cons hfunc), bind_ok (expectIdent_cons hident),
      bind_ok (h.function m (by omega) rest)]
    rfl

/-! ## Control -/

theorem reads_nop {tok : Token} (h : tok.kind = .symbol (delim .semicolon)) :
    Reads (.nop tok.line) [tok] := by
  refine reads_of_statement (by rw [front_cons, h]; rfl) fun m _ rest _ => ?_
  simp [statement, h]

theorem reads_jump {word tok : Token} {s : Stmt}
    (hs : word.kind = .symbol (kw .breakLoop) ∧ s = .breakLoop word.line ∨
      word.kind = .symbol (kw .continueLoop) ∧ s = .continueLoop word.line)
    (htok : tok.kind = .symbol (delim .semicolon)) : Reads s [word, tok] := by
  rcases hs with ⟨hword, rfl⟩ | ⟨hword, rfl⟩ <;>
  · refine reads_of_statement (by rw [front_cons, hword]; rfl) fun m _ rest _ => ?_
    simp only [statement, List.cons_append, List.nil_append, front_cons, hword, List.tail_cons]
    rw [bind_ok (expect_cons htok)]
    rfl

theorem reads_returnValue {word tok : Token} {e : Option Expr} {u : List Token}
    (hword : word.kind = .symbol (kw .returnValue)) (he : Spelled? e u)
    (htok : tok.kind = .symbol (delim .semicolon)) :
    Reads (.returnValue e word.line) (word :: (u ++ [tok])) := by
  refine reads_of_statement (by rw [front_cons, hword]; rfl) fun m hm rest _ => ?_
  simp only [List.length_cons, List.length_append] at hm
  have hvalue : unlessAt (delim .semicolon) (lowered (grammar m) m) (u ++ tok :: rest) =
      .ok (e, tok :: rest) := he.unlessAt (by omega) (at?_iff.2 htok)
  simp only [statement, List.cons_append, List.append_assoc, List.nil_append, front_cons, hword,
    List.tail_cons]
  rw [returnRest, bind_ok hvalue, bind_ok (expect_cons htok)]
  rfl

theorem reads_whileLoop {word a b : Token} {t : Tree} {body : Stmt} {u v : List Token}
    (hword : word.kind = .symbol (kw .whileLoop)) (ha : a.kind = .symbol (delim .lparen))
    (hu : Spelled t u) (hb : b.kind = .symbol (delim .rparen)) (hv : Reads body v) :
    Reads (.whileLoop (t.lower (front u).line) body word.line) (word :: a :: (u ++ b :: v)) := by
  refine reads_of_statement (by rw [front_cons, hword]; rfl) fun m hm rest hrest => ?_
  simp only [List.length_cons, List.length_append] at hm
  have hcond : condition (grammar m) m (a :: (u ++ b :: (v ++ rest))) =
      .ok (t.lower (front u).line, v ++ rest) := hu.condition (by omega) ha hb
  simp only [statement, List.cons_append, List.append_assoc, front_cons, hword, List.tail_cons]
  rw [bind_ok hcond, bind_ok (hv.stmt m (by omega) rest hrest)]
  rfl

section If

variable {word a b : Token} {t : Tree} {thenBranch : Stmt} {u v : List Token}
  (hword : word.kind = .symbol (kw .ifThen)) (ha : a.kind = .symbol (delim .lparen))
  (hu : Spelled t u) (hb : b.kind = .symbol (delim .rparen)) (hv : Reads thenBranch v)

include hword ha hu hb hv

theorem reads_ifThen : Reads (.ifThen (t.lower (front u).line) thenBranch none word.line)
    (word :: a :: (u ++ b :: v)) := by
  refine reads_of_statement (by rw [front_cons, hword]; rfl) fun m hm rest hrest => ?_
  simp only [List.length_cons, List.length_append] at hm
  have hcond : condition (grammar m) m (a :: (u ++ b :: (v ++ rest))) =
      .ok (t.lower (front u).line, v ++ rest) := hu.condition (by omega) ha hb
  simp only [statement, List.cons_append, List.append_assoc, front_cons, hword, List.tail_cons]
  rw [ifRest, bind_ok hcond, bind_ok (hv.stmt m (by omega) rest fun _ => hrest rfl),
    bind_ok (behind_none (hrest rfl))]
  rfl

theorem reads_ifThenElse {tok : Token} {elseBranch : Stmt} {w : List Token}
    (hclosed : thenBranch.endsOpen = false) (htok : tok.kind = .symbol (kw .elseThen))
    (hw : Reads elseBranch w) :
    Reads (.ifThen (t.lower (front u).line) thenBranch (some elseBranch) word.line)
      (word :: a :: (u ++ b :: (v ++ tok :: w))) := by
  refine reads_of_statement (by rw [front_cons, hword]; rfl) fun m hm rest hrest => ?_
  simp only [List.length_cons, List.length_append] at hm
  have hcond : condition (grammar m) m (a :: (u ++ b :: (v ++ tok :: (w ++ rest)))) =
      .ok (t.lower (front u).line, v ++ tok :: (w ++ rest)) := hu.condition (by omega) ha hb
  have hthen := hv.stmt m (by omega) (tok :: (w ++ rest)) fun h => by
    rw [hclosed] at h
    cases h
  have helse := behind_some htok (hw.stmt m (by omega) rest hrest)
  simp only [statement, List.cons_append, List.append_assoc, front_cons, hword, List.tail_cons]
  rw [ifRest, bind_ok hcond, bind_ok hthen, bind_ok helse]
  rfl

end If

/-- The first clause of a `for`. -/
inductive Clause? : Option Stmt → List Token → Prop
  | none : Clause? none []
  | some {s : Stmt} {used : List Token} : Clause s used → Clause? (some s) used

/-- The last clause of a `for`. -/
inductive Step? : Option Stmt → List Token → Prop
  | none : Step? none []
  | some {t : Tree} {used : List Token} : Spelled t used →
    Step? (some (t.toStmt (front used).line)) used

theorem Clause?.unlessAt {s : Option Stmt} (h : Clause? s used) {k : Nat} (hk : used.length ≤ k)
    (hrest : at? (delim .semicolon) rest = true) :
    unlessAt (delim .semicolon) (simple (grammar k) k) (used ++ rest) = .ok (s, rest) := by
  cases h with
  | none => exact unlessAt_none hrest
  | some h =>
    exact unlessAt_some (not_at_of_test beginsClause (h.begins rest hrest) rfl)
      (h.simple k hk rest hrest)

theorem Step?.unlessAt {s : Option Stmt} (h : Step? s used) {k : Nat} (hk : used.length ≤ k)
    (hrest : at? (delim .rparen) rest = true) :
    unlessAt (delim .rparen) (expressionStmt (grammar k) k) (used ++ rest) = .ok (s, rest) := by
  cases h with
  | none => exact unlessAt_none hrest
  | some h =>
    exact unlessAt_some (not_at_of_test Parser.starts (h.starts rest) rfl)
      (h.expressionStmt hk (stops_of_at hrest rfl))

theorem separator_ok {tok : Token} (h : tok.kind = .symbol (delim .semicolon)) :
    separator (tok :: rest) = .ok ((), rest) := by
  have hclose : at? (delim .rparen) (tok :: rest) = false := not_at_cons h nofun
  rw [separator, bind_ok (check_eq_ok.2 ⟨hclose.symm, rfl⟩)]
  exact expect_cons h

theorem reads_forLoop {word a b c d : Token} {init step : Option Stmt} {cond : Option Expr}
    {body : Stmt} {u v w x : List Token} (hword : word.kind = .symbol (kw .forLoop))
    (ha : a.kind = .symbol (delim .lparen)) (hu : Clause? init u)
    (hb : b.kind = .symbol (delim .semicolon)) (hv : Spelled? cond v)
    (hc : c.kind = .symbol (delim .semicolon)) (hw : Step? step w)
    (hd : d.kind = .symbol (delim .rparen)) (hx : Reads body x) :
    Reads (.forLoop init cond step body word.line)
      (word :: a :: (u ++ b :: (v ++ c :: (w ++ d :: x)))) := by
  refine reads_of_statement (by rw [front_cons, hword]; rfl) fun m hm rest hrest => ?_
  simp only [List.length_cons, List.length_append] at hm
  have hinit {r : List Token} : unlessAt (delim .semicolon) (simple (grammar m) m) (u ++ b :: r) =
      .ok (init, b :: r) := hu.unlessAt (by omega) (at?_iff.2 hb)
  have hcond {r : List Token} : unlessAt (delim .semicolon) (lowered (grammar m) m) (v ++ c :: r) =
      .ok (cond, c :: r) := hv.unlessAt (by omega) (at?_iff.2 hc)
  have hstep {r : List Token} : unlessAt (delim .rparen) (expressionStmt (grammar m) m)
      (w ++ d :: r) = .ok (step, d :: r) := hw.unlessAt (by omega) (at?_iff.2 hd)
  simp only [statement, List.cons_append, List.append_assoc, front_cons, hword, List.tail_cons]
  rw [forRest, bind_ok (expect_cons ha), bind_ok hinit, bind_ok (separator_ok hb), bind_ok hcond,
    bind_ok (separator_ok hc), bind_ok hstep, bind_ok (expect_cons hd),
    bind_ok (hx.stmt m (by omega) rest hrest)]
  rfl

/-! ## Sequences -/

section Step

variable {stmt : Parser Stmt} {n : Nat} {s : Stmt} {ss : List Stmt} {toks r : List Token}
  (hbegins : endsStmts (front toks).kind = false) (hs : stmt toks = .ok (s, r))

include hbegins hs

theorem blockRest_cons (hss : blockRest stmt n r = .ok (ss, rest)) :
    blockRest stmt (n + 1) toks = .ok (s :: ss, rest) := by
  have hopen : at? (delim .rbrace) toks = false := not_at_of_test endsStmts hbegins rfl
  rw [blockRest, bind_ok (eat_of_not_at hopen)]
  simp only [Bool.false_eq_true, if_false]
  rw [bind_peek]
  split
  · rename_i heof
    rw [heof] at hbegins
    cases hbegins
  · rw [if_neg nofun, bind_ok hs, bind_ok hss]
    rfl

theorem statements_cons (hss : statements stmt n r = .ok (ss, rest)) :
    statements stmt (n + 1) toks = .ok (s :: ss, rest) := by
  rw [statements, bind_peek]
  split
  · rename_i heof
    rw [heof] at hbegins
    cases hbegins
  · rw [if_neg nofun, bind_ok hs, bind_ok hss]
    rfl

end Step

/-- The tokens are read as the statements, one after the other. -/
inductive ReadsAll : List Stmt → List Token → Prop
  | nil : ReadsAll [] []
  | cons {s : Stmt} {ss : List Stmt} {u v : List Token} : Reads s u → ReadsAll ss v →
    ReadsAll (s :: ss) (u ++ v)

namespace ReadsAll

variable {ss : List Stmt} (h : ReadsAll ss used)

include h

/-- No statement starts with `else`. -/
theorem not_at_else (hrest : at? (kw .elseThen) rest = false) :
    at? (kw .elseThen) (used ++ rest) = false := by
  cases h with
  | nil => exact hrest
  | cons hs _ =>
    obtain ⟨tok, r, rfl, htok⟩ := hs.eq_cons
    exact not_at_of_test endsStmts htok rfl

theorem blockRest {close : Token} (hclose : close.kind = .symbol (delim .rbrace)) {k n : Nat}
    (hk : used.length ≤ k) (hn : used.length < n) :
    blockRest (grammar k).stmt n (used ++ close :: rest) = .ok (ss, rest) := by
  obtain ⟨n, rfl⟩ : ∃ m, n = m + 1 := ⟨n - 1, by omega⟩
  induction h generalizing n with
  | nil =>
    rw [Parser.blockRest, List.nil_append, bind_ok (eat_cons hclose)]
    rfl
  | @cons s ss u v hs hss ih =>
    have helse : at? (kw .elseThen) (v ++ close :: rest) = false :=
      hss.not_at_else (not_at_cons hclose nofun)
    rw [List.length_append] at hk hn
    have hread := hs.stmt k (by omega) (v ++ close :: rest) fun _ => helse
    obtain ⟨tok, r, rfl, htok⟩ := hs.eq_cons
    rw [List.length_cons] at hn
    obtain ⟨n, rfl⟩ : ∃ m, n = m + 1 := ⟨n - 1, by omega⟩
    rw [List.append_assoc]
    exact blockRest_cons htok hread (ih (by omega) n (by omega))

theorem statements {eof : Token} (heof : eof.kind = .eof) {k n : Nat} (hk : used.length ≤ k)
    (hn : used.length < n) : statements (grammar k).stmt n (used ++ [eof]) = .ok (ss, [eof]) := by
  obtain ⟨n, rfl⟩ : ∃ m, n = m + 1 := ⟨n - 1, by omega⟩
  induction h generalizing n with
  | nil =>
    rw [Parser.statements, List.nil_append, bind_peek, front_cons, heof]
    rfl
  | @cons s ss u v hs hss ih =>
    have helse : at? (kw .elseThen) (v ++ [eof]) = false :=
      hss.not_at_else (not_at_cons heof nofun)
    rw [List.length_append] at hk hn
    have hread := hs.stmt k (by omega) (v ++ [eof]) fun _ => helse
    obtain ⟨tok, r, rfl, htok⟩ := hs.eq_cons
    rw [List.length_cons] at hn
    obtain ⟨n, rfl⟩ : ∃ m, n = m + 1 := ⟨n - 1, by omega⟩
    rw [List.append_assoc]
    exact statements_cons htok hread (ih (by omega) n (by omega))

end ReadsAll

theorem reads_block {a b : Token} {body : List Stmt} {u : List Token}
    (ha : a.kind = .symbol (delim .lbrace)) (hu : ReadsAll body u)
    (hb : b.kind = .symbol (delim .rbrace)) : Reads (.block body a.line) (a :: (u ++ [b])) := by
  refine reads_of_statement (by rw [front_cons, ha]; rfl) fun m hm rest _ => ?_
  simp only [List.length_cons, List.length_append, List.length_nil] at hm
  have hbody : blockRest (grammar m).stmt m (u ++ b :: rest) = .ok (body, rest) :=
    hu.blockRest hb (by omega) (by omega)
  simp only [statement, List.cons_append, List.append_assoc, List.nil_append, front_cons, ha,
    List.tail_cons]
  rw [bind_ok hbody]
  rfl

end HeapScript.Parser
