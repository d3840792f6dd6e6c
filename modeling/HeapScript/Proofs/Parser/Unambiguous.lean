import HeapScript.Proofs.Parser.Complete.Declaration

/-!
# Expressions have one reading

* `Tree.eq_of_pieces_eq`: no two shaped trees are written alike. Both would be read from
  the same tokens, by a grammar that need not know how to read the bodies of functions:
  `codedGrammar` takes a body for a single brace, whose line says which body it is.
* `expr_shaped`: what an expression is read as is written with the tokens that were
  taken, and is the one shaped tree that is.
-/

namespace HeapScript

namespace Parser

/-- Reads expressions as usual. The body of a function is one token, and the line of the
token is the number of the body. -/
def codedGrammar (bodies : Nat → Stmt) : Nat → Grammar
  | 0 => ⟨fail .expectedExpression, fun toks => .ok (bodies (front toks).line, toks.tail)⟩
  | k + 1 =>
    ⟨fun toks => expression (codedGrammar bodies k) k toks,
      fun toks => .ok (bodies (front toks).line, toks.tail)⟩

theorem codedGrammar_stmt (bodies : Nat → Stmt) (k : Nat) (toks : List Token) :
    (codedGrammar bodies k).stmt toks = .ok (bodies (front toks).line, toks.tail) := by
  cases k <;> rfl

/-- Tokens of the given kinds, all on one line. -/
def onLine (line : Nat) (kinds : List TokenKind) : List Token :=
  kinds.map fun k => ⟨k, "", line⟩

@[simp] theorem map_kind_onLine (line : Nat) (kinds : List TokenKind) :
    (onLine line kinds).map Token.kind = kinds := by
  simp [onLine, Function.comp_def]

theorem exists_literal (bodies : Nat → Stmt) {d : FunctionDef} {i : Nat} (hi : bodies i = d.body) :
    ∃ lit, Literal (codedGrammar bodies) d lit := by
  let paren : Token := ⟨.delimiter .lparen, "", d.line⟩
  let close : Token := ⟨.delimiter .rparen, "", d.line⟩
  let brace : Token := ⟨.delimiter .lbrace, "", i⟩
  let func : Token := ⟨.word .func, "", d.line⟩
  have hword := map_kind_onLine d.line (printWord .closure d.captures)
  have hparams := map_kind_onLine d.line (printParams d.params)
  have hresult := map_kind_onLine d.line (printResult d.returnType d.returnsRef)
  generalize onLine d.line (printParams d.params) = params at hparams
  generalize onLine d.line (printResult d.returnType d.returnsRef) = result at hresult
  have hreads : ReadsFunction (codedGrammar bodies) d
      (paren :: (params ++ close :: (result ++ [brace]))) := by
    refine ⟨rfl, fun k hk rest => ?_⟩
    have hbody : (codedGrammar bodies k).stmt ([brace] ++ rest) = .ok (d.body, rest) := by
      rw [codedGrammar_stmt, ← hi]
      rfl
    simp only [List.length_cons, List.length_append] at hk
    have hrest := functionRest_ok (n := k) (l := d.line) (rfl : paren.kind = _) hparams
      (rfl : close.kind = _) hresult rfl hbody (by omega)
    rw [List.cons_append, List.append_assoc, List.cons_append, List.append_assoc]
    exact hrest.trans (by cases d; rfl)
  have hline : d.line = (front (onLine d.line (printWord .closure d.captures) ++ [func])).line := by
    cases d.captures <;> rfl
  exact ⟨_, hreads.literal hword rfl hline⟩

theorem exists_spells (bodies : Nat → Stmt) {ps : List Piece}
    (h : ∀ d, .function d ∈ ps → ∃ i, bodies i = d.body) :
    ∃ used, Spells (Literal (codedGrammar bodies)) ps used := by
  induction ps with
  | nil => exact ⟨[], .nil⟩
  | cons p ps ih =>
    obtain ⟨used, hspells⟩ := ih fun d hd => h d (List.mem_cons_of_mem _ hd)
    cases p with
    | token k => exact ⟨⟨k, "", 0⟩ :: used, .token ⟨k, "", 0⟩ hspells⟩
    | function d =>
      obtain ⟨i, hi⟩ := h d List.mem_cons_self
      obtain ⟨lit, hlit⟩ := exists_literal bodies hi
      exact ⟨lit ++ used, .function hlit hspells⟩

/-- The body of the function literal at the position, if there is one. -/
def bodyAt (ps : List Piece) (i : Nat) : Stmt :=
  match ps[i]? with
  | some (.function d) => d.body
  | _ => .nop 0

theorem exists_bodyAt {ps : List Piece} {d : FunctionDef} (hd : .function d ∈ ps) :
    ∃ i, bodyAt ps i = d.body := by
  obtain ⟨i, hi⟩ := List.mem_iff_getElem?.1 hd
  exact ⟨i, by simp only [bodyAt, hi]⟩

end Parser

/-- A shaped tree is determined by how it is written. -/
theorem Tree.eq_of_pieces_eq {t t' : Tree} (ht : t.Shaped) (ht' : t'.Shaped)
    (h : t'.pieces = t.pieces) : t' = t := by
  have hbodies : ∀ d, .function d ∈ t.pieces → ∃ i, Parser.bodyAt t.pieces i = d.body :=
    fun _ hd => Parser.exists_bodyAt hd
  generalize Parser.bodyAt t.pieces = bodies at hbodies
  obtain ⟨used, hspells⟩ := Parser.exists_spells bodies hbodies
  have hread {u : Tree} (hu : u.Shaped) (hpieces : u.pieces = t.pieces) :
      Parser.expression (Parser.codedGrammar bodies used.length) used.length (used ++ []) =
        .ok (u, []) := by
    rw [← hpieces] at hspells
    exact Parser.expression_ok (Parser.readsBelow (fun _ _ => rfl) _) hu hspells (Nat.le_refl _) rfl
  have heq := (hread ht' h).symm.trans (hread ht rfl)
  cases heq
  rfl

/-- What an expression is read as, at a level that the tokens cannot use up. Written in
source order, with each function literal as tokens that are read as it, it is the tokens
that were taken; no operand in it needs parentheses; and it is the only such tree. -/
theorem expr_shaped {n : Nat} {toks rest : List Token} {t : Tree} (hn : toks.length < n)
    (h : (Parser.grammar n).expr toks = .ok (t, rest)) :
    (∃ used, toks = used ++ rest ∧ Spells Parser.ReadAs t.pieces used) ∧ t.Shaped ∧
      ∀ t' : Tree, t'.Shaped → t'.pieces = t.pieces → t' = t := by
  obtain ⟨used, htoks, hread⟩ := Parser.parsed_grammar n toks t rest hn h
  exact ⟨⟨used, htoks, hread.spells⟩, hread.shaped,
    fun t' ht' hpieces => Tree.eq_of_pieces_eq hread.shaped ht' hpieces⟩

/-- `a = -b.c - d - func () { } * e` -/
def mixed : Tree :=
  .assign .assign (.ident "a")
    (.binary .sub (.binary .sub (.unary .neg (.member (.ident "b") "c")) (.ident "d"))
      (.binary .mul (.function ⟨[], .var, false, false, .block [] 1, 1⟩) (.ident "e")))

/-- The tokens of `mixed` and a semicolon. -/
def mixedTokens : List Token :=
  [⟨.ident "a", "a", 1⟩, ⟨.symbol (.assign .assign), "=", 1⟩, ⟨.symbol (.operator .sub), "-", 1⟩,
    ⟨.ident "b", "b", 1⟩, ⟨.delimiter .dot, ".", 1⟩, ⟨.ident "c", "c", 1⟩,
    ⟨.symbol (.operator .sub), "-", 1⟩, ⟨.ident "d", "d", 1⟩, ⟨.symbol (.operator .sub), "-", 1⟩,
    ⟨.word .func, "func", 1⟩, ⟨.delimiter .lparen, "(", 1⟩, ⟨.delimiter .rparen, ")", 1⟩,
    ⟨.delimiter .lbrace, "\x7b", 1⟩, ⟨.delimiter .rbrace, "\x7d", 1⟩,
    ⟨.symbol (.operator .mul), "*", 1⟩, ⟨.ident "e", "e", 1⟩, ⟨.delimiter .semicolon, ";", 1⟩,
    ⟨.eof, "", 1⟩]

theorem expr_shaped_mixed :
    (∃ used, mixedTokens = used ++ mixedTokens.drop 16 ∧ Spells Parser.ReadAs mixed.pieces used) ∧
      mixed.Shaped ∧ ∀ t' : Tree, t'.Shaped → t'.pieces = mixed.pieces → t' = mixed :=
  expr_shaped (n := 19) (by decide) rfl

end HeapScript
