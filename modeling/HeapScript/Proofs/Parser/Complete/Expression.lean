import HeapScript.Proofs.Parser.Precedence

/-!
# Every shaped expression is read

A shaped tree is read back from the tokens that spell it, whatever follows them, as
long as that does not go on with the expression.

* `Literal` says which tokens are a function literal; the lemmas hold for any family of
  grammars whose levels read expressions with the level below.
* `operand_suffixes`, `prefixed_ok` and `binary_operators` are the steps of precedence
  climbing. The first and the last are stated for what is still to come behind a left
  operand, since trees grow to the left.
* `expression_ok` reads a whole expression, `readsBelow` is the induction over the levels.
-/

namespace HeapScript.Parser

/-- Whether a token goes on with the operand before it. -/
def opensSuffix : TokenKind → Bool
  | .symbol (.delimiter .dot) | .symbol (.delimiter .lparen) | .symbol (.delimiter .lbracket) =>
    true
  | _ => false

/-- Whether a token goes on with the expression before it. -/
def continues (k : TokenKind) : Bool :=
  opensSuffix k || (binaryOp? k).isSome || (assignOp? k).isSome

/-- Whether a token can be the first one of an operand. -/
def startsOperand : TokenKind → Bool
  | .num _ | .str _ | .ident _ => true
  | .symbol (.keyword .trueValue) | .symbol (.keyword .falseValue) => true
  | .symbol (.keyword .func) | .symbol (.keyword .closure) => true
  | .symbol (.delimiter .lparen) | .symbol (.delimiter .lbracket) => true
  | _ => false

/-- Whether a token can be the first one of an expression. -/
def starts (k : TokenKind) : Bool :=
  startsOperand k || (unaryOp? k).isSome

theorem unaryOp?_symbol (op : UnaryOp) : unaryOp? (.symbol op.symbol) = some op := by
  cases op <;> rfl

theorem unaryOp?_of_startsOperand {k : TokenKind} (h : startsOperand k = true) :
    unaryOp? k = none := by
  rw [startsOperand.eq_def] at h
  split at h <;> first | rfl | cases h

theorem continues_eq_false {k : TokenKind} (h : continues k = false) :
    opensSuffix k = false ∧ binaryOp? k = none ∧ assignOp? k = none := by
  simpa [continues, and_assoc] using h

/-- At every level that is high enough, the tokens are read as the function literal. -/
def Literal (g : Nat → Grammar) (d : FunctionDef) (lit : List Token) : Prop :=
  ∀ k, lit.length ≤ k → ∀ rest, functionLiteral (g k) k (lit ++ rest) = .ok (d, rest)

/-- A function literal starts with one or two words and a parenthesis. -/
theorem functionLiteral_front {G : Grammar} {n : Nat} {toks rest : List Token} {d : FunctionDef}
    (h : functionLiteral G n toks = .ok (d, rest)) :
    (∃ a b r, toks = a :: b :: r ∧ a.kind = .symbol (kw .func) ∧
      b.kind = .symbol (delim .lparen)) ∨
    ∃ a b c r, toks = a :: b :: c :: r ∧ a.kind = .symbol (kw .closure) ∧
      b.kind = .symbol (kw .func) ∧ c.kind = .symbol (delim .lparen) := by
  obtain ⟨l, r, hl, h₁⟩ := bind_apply_eq_ok.1 h
  obtain ⟨captures, r₁, hc, h₂⟩ := bind_apply_eq_ok.1 h₁
  obtain ⟨_, r₂, hf, h₃⟩ := bind_apply_eq_ok.1 h₂
  obtain ⟨_, r₃, hp, -⟩ := bind_apply_eq_ok.1 h₃
  obtain ⟨-, rfl⟩ := line_eq_ok.1 hl
  obtain ⟨func, rfl, hfunc⟩ := expect_eq_ok.1 hf
  obtain ⟨paren, rfl, hparen⟩ := expect_eq_ok.1 hp
  rcases eat_eq_ok.1 hc with ⟨-, closure, rfl, hclosure⟩ | ⟨-, -, rfl⟩
  · exact .inr ⟨closure, func, paren, r₃, rfl, hclosure, hfunc, hparen⟩
  · exact .inl ⟨func, paren, r₃, rfl, hfunc, hparen⟩

section Level

variable {g : Nat → Grammar} {t : Tree} {used rest : List Token}

theorem Literal.front {d : FunctionDef} {lit : List Token} (h : Literal g d lit) :
    (∃ a b r, lit = a :: b :: r ∧ a.kind = .symbol (kw .func) ∧
      b.kind = .symbol (delim .lparen)) ∨
    ∃ a b c r, lit = a :: b :: c :: r ∧ a.kind = .symbol (kw .closure) ∧
      b.kind = .symbol (kw .func) ∧ c.kind = .symbol (delim .lparen) := by
  have hlit := functionLiteral_front (h lit.length (Nat.le_refl _) [])
  rwa [List.append_nil] at hlit

theorem Literal.ne_nil {d : FunctionDef} {lit : List Token} (h : Literal g d lit) : lit ≠ [] := by
  rcases h.front with ⟨a, b, r, rfl, -⟩ | ⟨a, b, c, r, rfl, -⟩ <;> exact List.cons_ne_nil _ _

theorem length_pos (h : Spells (Literal g) t.pieces used) : 0 < used.length :=
  List.length_pos_iff.2 (h.ne_nil (fun _ _ => Literal.ne_nil) t.pieces_ne_nil)

/-- The first token of an expression, whatever follows it. Only an expression that is no
operand starts with a prefix operator. -/
theorem front_cases (ht : t.Shaped) (h : Spells (Literal g) t.pieces used) (rest : List Token) :
    startsOperand (front (used ++ rest)).kind = true ∨
      t.level < 13 ∧ (unaryOp? (front (used ++ rest)).kind).isSome = true := by
  induction t using Tree.operandRec generalizing used rest with
  | function d =>
    obtain ⟨lit, u, rfl, hlit, -⟩ := spells_function_iff.1 h
    rcases hlit.front with ⟨a, b, r, rfl, ha, -⟩ | ⟨a, b, c, r, rfl, ha, -⟩
    · simp [ha, startsOperand]
    · simp [ha, startsOperand]
  | binary op left right ih _ =>
    obtain ⟨u, v, rfl, hu, -⟩ := spells_append_iff.1 h
    have hlevel : op.precedence < 13 := Nat.lt_of_le_of_lt op.precedence_le (by decide)
    rw [List.append_assoc]
    exact (ih (ht.part (by simp [Tree.parts])) hu _).imp_right fun h => ⟨hlevel, h.2⟩
  | assign op target value ih _ =>
    obtain ⟨u, v, rfl, hu, -⟩ := spells_append_iff.1 h
    rw [List.append_assoc]
    exact (ih (ht.part (by simp [Tree.parts])) hu _).imp_right fun h => ⟨Nat.zero_lt_succ 12, h.2⟩
  | member object _ ih | call object _ ih | index object _ ih =>
    obtain ⟨u, v, rfl, hu, -⟩ := spells_append_iff.1 h
    rw [List.append_assoc]
    exact (ih (ht.part (by simp [Tree.parts])) hu _).imp_right fun h =>
      absurd h.1 (Nat.not_lt.2 ht.fits)
  | unary op operand =>
    obtain ⟨tok, u, rfl, hkind, -⟩ := spells_token_iff.1 h
    simp [hkind, unaryOp?_symbol, Tree.level]
  | bool b =>
    obtain ⟨tok, u, rfl, hkind, -⟩ := spells_token_iff.1 h
    cases b <;> simp [hkind, startsOperand, Tree.boolWord]
  | num | str | ident | array | paren =>
    obtain ⟨tok, u, rfl, hkind, -⟩ := spells_token_iff.1 h
    simp [hkind, startsOperand]

theorem starts_front (ht : t.Shaped) (h : Spells (Literal g) t.pieces used) (rest : List Token) :
    starts (front (used ++ rest)).kind = true := by
  rw [starts, Bool.or_eq_true]
  exact (front_cases ht h rest).imp_right And.right

theorem unaryOp?_front (ht : t.Shaped) (hlevel : 13 ≤ t.level)
    (h : Spells (Literal g) t.pieces used) (rest : List Token) :
    unaryOp? (front (used ++ rest)).kind = none := by
  rcases front_cases ht h rest with hfront | ⟨hlt, -⟩
  · exact unaryOp?_of_startsOperand hfront
  · omega

/-- The level below reads every shaped tree that is short enough. -/
def ReadsBelow (g : Nat → Grammar) (k : Nat) : Prop :=
  ∀ (t : Tree) (used rest : List Token), t.Shaped → Spells (Literal g) t.pieces used →
    used.length < k → continues (front rest).kind = false →
    (g k).expr (used ++ rest) = .ok (t, rest)

/-! ## Operands -/

variable {k : Nat} (hk : ReadsBelow g k)

include hk

theorem expressionsRest_ok {close : Symbol} (hc : continues (.symbol close) = false)
    (hcomma : close ≠ delim .comma) {tok : Token} (htok : tok.kind = .symbol close)
    {ts : List Tree} (ht : t.Shaped) (hts : ∀ t ∈ ts, t.Shaped)
    (h : Spells (Literal g) (t.pieces ++ Tree.piecesMore ts) used) (hlt : used.length < k)
    {n : Nat} (hn : used.length ≤ n) :
    expressionsRest (g k).expr close n (used ++ tok :: rest) = .ok (t :: ts, rest) := by
  induction ts generalizing t used n with
  | nil =>
    rw [Tree.piecesMore, List.append_nil] at h
    have hpos := length_pos h
    obtain ⟨n, rfl⟩ : ∃ m, n = m + 1 := ⟨n - 1, by omega⟩
    have he := hk t used (tok :: rest) ht h hlt (by rw [front_cons, htok, hc])
    rw [expressionsRest, bind_ok he, bind_ok (eat_cons htok)]
    rfl
  | cons t' ts ih =>
    obtain ⟨u, v, rfl, hu, hv⟩ := spells_append_iff.1 h
    obtain ⟨comma, w, rfl, hkind, hw⟩ := spells_token_iff.1 hv
    rw [List.length_append, List.length_cons] at hlt hn
    obtain ⟨n, rfl⟩ : ∃ m, n = m + 1 := ⟨n - 1, by omega⟩
    have he := hk t u (comma :: w ++ tok :: rest) ht hu (by omega)
      (by rw [List.cons_append, front_cons, hkind]; rfl)
    have hmore := ih (hts t' List.mem_cons_self) (fun x hx => hts x (List.mem_cons_of_mem _ hx)) hw
      (by omega) (n := n) (by omega)
    have hopen : at? close (comma :: (w ++ tok :: rest)) = false :=
      not_at_cons hkind fun h => hcomma (TokenKind.symbol.inj h).symm
    rw [List.append_assoc, expressionsRest, bind_ok he, List.cons_append,
      bind_ok (eat_of_not_at hopen)]
    simp only [Bool.false_eq_true, if_false]
    rw [bind_ok (expect_cons hkind), bind_ok hmore]
    rfl

theorem expressions_ok {close : Symbol} (hs : starts (.symbol close) = false)
    (hc : continues (.symbol close) = false) (hcomma : close ≠ delim .comma) {tok : Token}
    (htok : tok.kind = .symbol close) {ts : List Tree} (hts : ∀ t ∈ ts, t.Shaped)
    (h : Spells (Literal g) (Tree.piecesAll ts) used) (hlt : used.length < k) {n : Nat}
    (hn : used.length ≤ n) :
    expressions (g k).expr close n (used ++ tok :: rest) = .ok (ts, rest) := by
  cases ts with
  | nil =>
    obtain rfl := spells_nil_iff.1 h
    rw [expressions, List.nil_append, bind_ok (eat_cons htok)]
    rfl
  | cons t ts =>
    obtain ⟨u, v, rfl, hu, -⟩ := spells_append_iff.1 h
    have hopen : at? close (u ++ v ++ tok :: rest) = false := by
      rw [List.append_assoc]
      exact not_at_of_test starts (starts_front (hts t List.mem_cons_self) hu _) hs
    rw [expressions, bind_ok (eat_of_not_at hopen)]
    exact expressionsRest_ok hk hc hcomma htok (hts t List.mem_cons_self)
      (fun x hx => hts x (List.mem_cons_of_mem _ hx)) h hlt hn

omit hk in
theorem primary_function_ok {d : FunctionDef} {lit : List Token} (h : Literal g d lit)
    (hlt : lit.length ≤ k) (rest : List Token) :
    primary (g k) k (lit ++ rest) = .ok (.function d, rest) := by
  have hread : (do return .function (← functionLiteral (g k) k) : Parser Tree) (lit ++ rest) =
      .ok (.function d, rest) := by
    rw [bind_ok (h k hlt rest)]
    rfl
  rcases h.front with ⟨a, b, r, rfl, ha, -⟩ | ⟨a, b, c, r, rfl, ha, -⟩
  · simpa [primary, ha] using hread
  · simpa [primary, ha] using hread

/-- An operand that has nothing behind it is read as it is. -/
theorem primary_ok (ht : t.Shaped) (hmember : ∀ o name, t ≠ .member o name)
    (hcall : ∀ o args, t ≠ .call o args) (hindex : ∀ o idx, t ≠ .index o idx)
    (hlevel : 13 ≤ t.level) (h : Spells (Literal g) t.pieces used) (hlt : used.length ≤ k)
    (rest : List Token) : primary (g k) k (used ++ rest) = .ok (t, rest) := by
  obtain ⟨-, hparts⟩ := Tree.shaped_iff.1 ht
  cases t with
  | num | str | ident =>
    obtain ⟨tok, rfl, hkind⟩ := spells_singleton_iff.1 h
    simp [primary, hkind]
  | bool b =>
    obtain ⟨tok, rfl, hkind⟩ := spells_singleton_iff.1 h
    cases b <;> simp [primary, hkind, Tree.boolWord]
  | function d =>
    obtain ⟨lit, u, rfl, hlit, hu⟩ := spells_function_iff.1 h
    obtain rfl := spells_nil_iff.1 hu
    rw [List.append_nil] at hlt ⊢
    exact primary_function_ok hlit hlt rest
  | array elements =>
    obtain ⟨tok, u, close, rfl, hkind, hclose, hu⟩ := spells_enclosed_iff.1 h
    simp only [List.length_cons, List.length_append, List.length_nil] at hlt
    have hread : expressions (g k).expr (delim .rbracket) k (u ++ close :: rest) =
        .ok (elements, rest) :=
      expressions_ok hk rfl rfl (by decide) hclose hparts hu (by omega) (by omega)
    have harray : (do return .array (← expressions (g k).expr (delim .rbracket) k) : Parser Tree)
        (u ++ close :: rest) = .ok (.array elements, rest) := by
      rw [bind_ok hread]
      rfl
    simpa [primary, hkind] using harray
  | paren inner =>
    obtain ⟨tok, u, close, rfl, hkind, hclose, hu⟩ := spells_enclosed_iff.1 h
    simp only [List.length_cons, List.length_append, List.length_nil] at hlt
    have hread := hk inner u (close :: rest) (hparts inner (by simp [Tree.parts])) hu (by omega)
      (by rw [front_cons, hclose]; rfl)
    have hparen : (do
        let inner ← (g k).expr
        expect (delim .rparen)
        return .paren inner : Parser Tree) (u ++ close :: rest) = .ok (.paren inner, rest) := by
      rw [bind_ok hread, bind_ok (expect_cons hclose)]
      rfl
    simpa [primary, hkind] using hparen
  | member o name => exact absurd rfl (hmember o name)
  | call o args => exact absurd rfl (hcall o args)
  | index o idx => exact absurd rfl (hindex o idx)
  | binary op =>
    have := op.precedence_le
    rw [Tree.level] at hlevel
    omega
  | unary | assign => simp [Tree.level] at hlevel

/-! ## Suffixes -/

section Suffixes

variable {G : Grammar} {n : Nat} {toks : List Token}

omit hk

theorem suffixes_member {name : String} {dot tok : Token} (hdot : dot.kind = .symbol (delim .dot))
    (htok : tok.kind = .ident name) :
    suffixes G (n + 1) t (dot :: tok :: rest) = suffixes G n (.member t name) rest := by
  rw [suffixes, bind_ok (eat_cons hdot)]
  exact bind_ok (expectIdent_cons htok)

theorem suffixes_call {args : List Tree} {paren : Token}
    (hparen : paren.kind = .symbol (delim .lparen))
    (hargs : expressions G.expr (delim .rparen) n toks = .ok (args, rest)) :
    suffixes G (n + 1) t (paren :: toks) = suffixes G n (.call t args) rest := by
  have hdot : at? (delim .dot) (paren :: toks) = false := not_at_cons hparen nofun
  rw [suffixes, bind_ok (eat_of_not_at hdot)]
  show (eat (delim .lparen) >>= _) (paren :: toks) = _
  rw [bind_ok (eat_cons hparen)]
  exact bind_ok hargs

theorem suffixes_index {idx : Tree} {bracket close : Token}
    (hbracket : bracket.kind = .symbol (delim .lbracket))
    (hclose : close.kind = .symbol (delim .rbracket))
    (hidx : G.expr toks = .ok (idx, close :: rest)) :
    suffixes G (n + 1) t (bracket :: toks) = suffixes G n (.index t idx) rest := by
  have hdot : at? (delim .dot) (bracket :: toks) = false := not_at_cons hbracket nofun
  have hparen : at? (delim .lparen) (bracket :: toks) = false := not_at_cons hbracket nofun
  rw [suffixes, bind_ok (eat_of_not_at hdot)]
  show (eat (delim .lparen) >>= _) (bracket :: toks) = _
  rw [bind_ok (eat_of_not_at hparen)]
  show (eat (delim .lbracket) >>= _) (bracket :: toks) = _
  rw [bind_ok (eat_cons hbracket)]
  show (G.expr >>= _) toks = _
  rw [bind_ok hidx]
  exact bind_ok (expect_cons hclose)

theorem suffixes_stop (h : opensSuffix (front toks).kind = false) :
    suffixes G n t toks = .ok (t, toks) := by
  have hnot {s : Symbol} (hs : opensSuffix (.symbol s) = true) : at? s toks = false :=
    not_at_of_test opensSuffix h hs
  cases n with
  | zero => rfl
  | succ n =>
    rw [suffixes, bind_ok (eat_of_not_at (hnot rfl))]
    show (eat (delim .lparen) >>= _) toks = _
    rw [bind_ok (eat_of_not_at (hnot rfl))]
    show (eat (delim .lbracket) >>= _) toks = _
    rw [bind_ok (eat_of_not_at (hnot rfl))]
    rfl

end Suffixes

/-- An operand is read and becomes the left operand of the suffixes behind it. At most
one round of the loop is spent on each of its own. -/
theorem operand_suffixes (ht : t.Shaped) (hlevel : 13 ≤ t.level)
    (h : Spells (Literal g) t.pieces used) (hlt : used.length ≤ k) (rest : List Token) :
    ∃ n, k < n + used.length ∧ operand (g k) k (used ++ rest) = suffixes (g k) n t rest := by
  induction t using Tree.operandRec generalizing used rest with
  | member object name ih =>
    obtain ⟨u, v, rfl, hu, hv⟩ := spells_append_iff.1 h
    obtain ⟨dot, _, rfl, hdot, hv⟩ := spells_token_iff.1 hv
    obtain ⟨tok, rfl, htok⟩ := spells_singleton_iff.1 hv
    simp only [List.length_cons, List.length_append, List.length_nil] at hlt ⊢
    obtain ⟨n, hn, heq⟩ := ih (ht.part (by simp [Tree.parts])) ht.fits hu (by omega)
      (dot :: tok :: rest)
    obtain ⟨n, rfl⟩ : ∃ m, n = m + 1 := ⟨n - 1, by omega⟩
    refine ⟨n, by omega, ?_⟩
    rw [List.append_assoc]
    exact heq.trans (suffixes_member hdot htok)
  | call callee args ih =>
    obtain ⟨u, v, rfl, hu, hv⟩ := spells_append_iff.1 h
    obtain ⟨paren, w, close, rfl, hparen, hclose, hw⟩ := spells_enclosed_iff.1 hv
    simp only [List.length_cons, List.length_append, List.length_nil] at hlt ⊢
    obtain ⟨n, hn, heq⟩ := ih (ht.part (by simp [Tree.parts])) ht.fits hu (by omega)
      (paren :: (w ++ close :: rest))
    obtain ⟨n, rfl⟩ : ∃ m, n = m + 1 := ⟨n - 1, by omega⟩
    refine ⟨n, by omega, ?_⟩
    have hargs : expressions (g k).expr (delim .rparen) n (w ++ close :: rest) = .ok (args, rest) :=
      expressions_ok hk rfl rfl (by decide) hclose
        (fun x hx => ht.part (List.mem_cons_of_mem _ hx)) hw (by omega) (by omega)
    rw [List.append_assoc, List.cons_append, List.append_assoc]
    exact heq.trans (suffixes_call hparen hargs)
  | index object idx ih =>
    obtain ⟨u, v, rfl, hu, hv⟩ := spells_append_iff.1 h
    obtain ⟨bracket, w, close, rfl, hbracket, hclose, hw⟩ := spells_enclosed_iff.1 hv
    simp only [List.length_cons, List.length_append, List.length_nil] at hlt ⊢
    obtain ⟨n, hn, heq⟩ := ih (ht.part (by simp [Tree.parts])) ht.fits hu (by omega)
      (bracket :: (w ++ close :: rest))
    obtain ⟨n, rfl⟩ : ∃ m, n = m + 1 := ⟨n - 1, by omega⟩
    refine ⟨n, by omega, ?_⟩
    have hidx := hk idx w (close :: rest) (ht.part (by simp [Tree.parts])) hw (by omega)
      (by rw [front_cons, hclose]; rfl)
    rw [List.append_assoc, List.cons_append, List.append_assoc]
    exact heq.trans (suffixes_index hbracket hclose hidx)
  | _ =>
    have hpos := length_pos h
    exact ⟨k, by omega, bind_ok (primary_ok hk ht (by simp) (by simp) (by simp) hlevel h hlt rest)⟩

theorem operand_ok (ht : t.Shaped) (hlevel : 13 ≤ t.level) (h : Spells (Literal g) t.pieces used)
    (hlt : used.length ≤ k) (hrest : opensSuffix (front rest).kind = false) :
    operand (g k) k (used ++ rest) = .ok (t, rest) := by
  obtain ⟨n, -, heq⟩ := operand_suffixes hk ht hlevel h hlt rest
  exact heq.trans (suffixes_stop hrest)

/-! ## Operators -/

omit hk in
theorem prefixed_of_front {operand : Parser Tree} {toks : List Token}
    (h : unaryOp? (front toks).kind = none) : prefixed operand toks = operand toks := by
  cases toks with
  | nil => rfl
  | cons tok r =>
    rw [front_cons] at h
    rw [prefixed, h]

theorem prefixed_ok (ht : t.Shaped) (hlevel : 12 ≤ t.level)
    (h : Spells (Literal g) t.pieces used) (hlt : used.length ≤ k)
    (hrest : opensSuffix (front rest).kind = false) :
    prefixed (operand (g k) k) (used ++ rest) = .ok (t, rest) := by
  have hoperand {u : Tree} {toks : List Token} (hu : u.Shaped) (hlevel : 13 ≤ u.level)
      (h : Spells (Literal g) u.pieces toks) (hlt : toks.length ≤ k) :
      prefixed (operand (g k) k) (toks ++ rest) = .ok (u, rest) := by
    rw [prefixed_of_front (unaryOp?_front hu hlevel h rest)]
    exact operand_ok hk hu hlevel h hlt hrest
  induction t using Tree.operandRec generalizing used with
  | unary op e ih =>
    obtain ⟨tok, u, rfl, hkind, hu⟩ := spells_token_iff.1 h
    have he := ih (ht.part (by simp [Tree.parts])) ht.fits hu (Nat.le_of_succ_le hlt)
    rw [List.cons_append, prefixed, hkind, unaryOp?_symbol, he]
    rfl
  | binary op =>
    have := op.precedence_le
    rw [Tree.level] at hlevel
    omega
  | assign => cases hlevel
  | _ => exact hoperand ht (Nat.le_refl 13) h hlt

omit hk in
theorem operators_stop {unary : Parser Tree} {n low : Nat} {toks : List Token}
    (h : Below low toks) : operators unary n low t toks = .ok (t, toks) := by
  cases n with
  | zero => rw [operators]; rfl
  | succ n =>
    simp only [operators]
    split
    · rename_i op hop
      rw [if_pos (h op hop)]
    · rfl

omit hk in
theorem operators_step {unary : Parser Tree} {n low : Nat} {op : BinaryOp} {tok : Token}
    {left right : Tree} {toks : List Token} (hkind : tok.kind = .symbol (.operator op))
    (hlow : low ≤ op.precedence)
    (hright : binary unary n (op.precedence + 1) toks = .ok (right, rest)) :
    operators unary (n + 1) low left (tok :: toks) =
      operators unary n low (.binary op left right) rest := by
  have hop : binaryOp? tok.kind = some op := binaryOp?_eq_some.2 hkind
  simp only [operators, front_cons, hop, if_neg (Nat.not_lt.2 hlow)]
  exact bind_ok hright

/-- A chain is read and becomes the left operand of the operators behind it. What is
behind it must not bind tighter than the chain itself. -/
theorem binary_operators (ht : t.Shaped) (hlevel : 0 < t.level)
    (h : Spells (Literal g) t.pieces used) (hlt : used.length ≤ k) {low n : Nat}
    (hlow : low ≤ t.level) (hn : used.length ≤ n + 1)
    (hrest : opensSuffix (front rest).kind = false) (hbelow : Below (t.level + 1) rest) :
    ∃ n', n ≤ n' + used.length ∧ binary (prefixed (operand (g k) k)) n low (used ++ rest) =
      operators (prefixed (operand (g k) k)) n' low t rest := by
  induction t using Tree.operandRec generalizing used rest low n with
  | binary op left right ihl ihr =>
    obtain ⟨u, v, rfl, hu, hv⟩ := spells_append_iff.1 h
    obtain ⟨tok, w, rfl, hkind, hw⟩ := spells_token_iff.1 hv
    obtain ⟨hleft, hright⟩ := ht.fits
    have hprec := op.two_le_precedence
    have hpos := length_pos hw
    simp only [List.length_append, List.length_cons] at hlt hn ⊢
    have hfront : Below (left.level + 1) (tok :: (w ++ rest)) := by
      intro op' hop'
      rw [front_cons, binaryOp?_eq_some.2 hkind] at hop'
      cases hop'
      omega
    obtain ⟨n₁, hn₁, hl⟩ := ihl (ht.part (by simp [Tree.parts])) (by omega) hu (by omega)
      (Nat.le_trans hlow hleft) (n := n) (by omega) (by rw [front_cons, hkind]; rfl) hfront
    obtain ⟨n₂, rfl⟩ : ∃ m, n₁ = m + 1 := ⟨n₁ - 1, by omega⟩
    obtain ⟨n₃, -, hr⟩ := ihr (ht.part (by simp [Tree.parts])) (by omega) hw (by omega)
      hright (n := n₂) (by omega) hrest fun op' hop' => by
        have := hbelow op' hop'
        rw [Tree.level] at this
        omega
    refine ⟨n₂, by omega, ?_⟩
    rw [List.append_assoc]
    exact hl.trans (operators_step hkind hlow (hr.trans (operators_stop hbelow)))
  | assign => cases hlevel
  | _ =>
    have hpos := length_pos h
    have hread := prefixed_ok hk ht (by simp [Tree.level]) h hlt hrest
    cases n with
    | zero => exact ⟨0, by omega, by rw [binary, operators]; exact hread⟩
    | succ n => exact ⟨n, by omega, by rw [binary]; exact bind_ok hread⟩

/-- A whole expression. -/
theorem expression_ok (ht : t.Shaped) (h : Spells (Literal g) t.pieces used)
    (hlt : used.length ≤ k) (hrest : continues (front rest).kind = false) :
    expression (g k) k (used ++ rest) = .ok (t, rest) := by
  have hchain {u : Tree} {toks rest : List Token} (hu : u.Shaped) (hlow : 2 ≤ u.level)
      (h : Spells (Literal g) u.pieces toks) (hlt : toks.length ≤ k)
      (hsuffix : opensSuffix (front rest).kind = false) (hop : binaryOp? (front rest).kind = none) :
      binary (prefixed (operand (g k) k)) k 2 (toks ++ rest) = .ok (u, rest) := by
    have hbelow (low : Nat) : Below low rest := fun op h => by
      rw [hop] at h
      cases h
    obtain ⟨n, -, heq⟩ :=
      binary_operators hk hu (by omega) h hlt hlow (n := k) (by omega) hsuffix (hbelow _)
    exact heq.trans (operators_stop (hbelow 2))
  rcases Nat.eq_zero_or_pos t.level with hzero | hpos
  · cases t with
    | assign op target value =>
      obtain ⟨u, v, rfl, hu, hv⟩ := spells_append_iff.1 h
      obtain ⟨tok, w, rfl, hkind, hw⟩ := spells_token_iff.1 hv
      rw [List.length_append, List.length_cons] at hlt
      have htarget : binary (prefixed (operand (g k) k)) k 2 (u ++ tok :: (w ++ rest)) =
          .ok (target, tok :: (w ++ rest)) :=
        hchain (ht.part (by simp [Tree.parts])) (Tree.two_le_level ht.fits) hu (by omega)
          (by rw [front_cons, hkind]; rfl) (by rw [front_cons, hkind]; rfl)
      have hvalue := hk value w rest (ht.part (by simp [Tree.parts])) hw (by omega) hrest
      rw [List.append_assoc, List.cons_append, expression, bind_ok htarget, bind_peek]
      simp only [front_cons, assignOp?_eq_some.2 hkind]
      rw [bind_ok (expect_cons hkind), bind_ok hvalue]
      rfl
    | binary op =>
      have := op.two_le_precedence
      rw [Tree.level] at hzero
      omega
    | _ => cases hzero
  · obtain ⟨hsuffix, hop, hassign⟩ := continues_eq_false hrest
    rw [expression, bind_ok (hchain ht (Tree.two_le_level hpos) h hlt hsuffix hop), bind_peek]
    simp only [hassign]
    rfl

end Level

/-- Every level that the tokens do not use up, where each level reads expressions with
the one below. -/
theorem readsBelow {g : Nat → Grammar}
    (hg : ∀ k toks, (g (k + 1)).expr toks = expression (g k) k toks) (k : Nat) :
    ReadsBelow g k := by
  induction k with
  | zero => exact fun _ _ _ _ _ hlt => absurd hlt (Nat.not_lt_zero _)
  | succ k ih =>
    intro t used rest ht h hlt hrest
    rw [hg]
    exact expression_ok ih ht h (Nat.le_of_lt_succ hlt) hrest

end HeapScript.Parser
