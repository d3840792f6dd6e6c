import HeapScript.Proofs.Parser.Outcome
import HeapScript.Proofs.Program.Lowering

/-!
# How parsers go through their tokens

* `Parser.Walks`: a parser takes tokens from the front, but not the end of the file. Where
  it fails, the error is that of the token at which it stands (`ParseError.IsAt`). What it
  reads has a property, and so have the lines that it stands at. The lemmas go through the
  building blocks of parsers.
* `walks_grammar`: so it is with statements and expressions of any nesting. The property
  of the statements is any one that follows from those of their parts (`Stmt.Composes`).
* `isLowered_of_parse`: every expression of a parsed program, at any depth, is a lowered
  tree.
* `contains_of_parse` and `line_of_parse_error`: the statements of a parsed program, at any
  depth, and the errors of a parse are on lines of tokens.
-/

namespace HeapScript

/-- The fault is one of the kind of token: it names the kind as found, or is the one that a
closing parenthesis makes in a `for`. -/
def ParseFault.IsOf : ParseFault → TokenKind → Prop
  | unexpectedToken _ found, k => found = k
  | expectedExpression found, k => found = k
  | expectedType found, k => found = k
  | malformedFor, k => k = .symbol (.delimiter .rparen)

/-- The error is that of the token at the front: it has its line, and a fault of its kind. -/
def ParseError.IsAt (e : ParseError) (toks : List Token) : Prop :=
  e.line = (Parser.front toks).line ∧ e.fault.IsOf (Parser.front toks).kind

namespace Parser

variable {α β : Type} {Q : Nat → Prop} {S : Stmt → Prop} {toks rest : List Token}

/-! ## Places -/

/-- The second list is the first without tokens at the front, none of which is the end of
the file. -/
def Ahead (toks rest : List Token) : Prop :=
  ∃ taken, toks = taken ++ rest ∧ ∀ t ∈ taken, t.kind ≠ .eof

/-- Whatever token a parser of the list comes to stand at, its line has the property. -/
def Lined (Q : Nat → Prop) (toks : List Token) : Prop :=
  ∀ rest, Ahead toks rest → Q (front rest).line

theorem ahead_refl (toks : List Token) : Ahead toks toks := ⟨[], rfl, by simp⟩

theorem Ahead.trans {r : List Token} (h : Ahead toks r) (h' : Ahead r rest) : Ahead toks rest := by
  obtain ⟨taken, rfl, htaken⟩ := h
  obtain ⟨taken', rfl, htaken'⟩ := h'
  refine ⟨taken ++ taken', (List.append_assoc ..).symm, fun t ht => ?_⟩
  exact (List.mem_append.1 ht).elim (htaken t) (htaken' t)

theorem Ahead.suffix (h : Ahead toks rest) : rest <:+ toks := by
  obtain ⟨taken, rfl, -⟩ := h
  exact List.suffix_append taken rest

theorem ahead_cons {tok : Token} {r : List Token} (h : tok.kind ≠ .eof) : Ahead (tok :: r) r :=
  ⟨[tok], rfl, by simpa using h⟩

/-- A token of which something can be made is not the end of the file, of which it cannot. -/
theorem ne_eof_of_eq_some {f : TokenKind → Option α} {k : TokenKind} {a : α} (h : f k = some a)
    (heof : f .eof = none) : k ≠ .eof := by
  rintro rfl
  rw [heof] at h
  cases h

theorem ahead_tail (h : (front toks).kind ≠ .eof) : Ahead toks toks.tail := by
  cases toks with
  | nil => exact absurd rfl h
  | cons tok r => exact ahead_cons h

theorem ahead_tail_of_kind {k : TokenKind} (h : (front toks).kind = k) (hk : k ≠ .eof) :
    Ahead toks toks.tail :=
  ahead_tail (by rwa [h])

theorem Lined.ahead (h : Lined Q toks) (hrest : Ahead toks rest) : Lined Q rest :=
  fun _ h' => h _ (hrest.trans h')

theorem Lined.front (h : Lined Q toks) : Q (front toks).line := h toks (ahead_refl toks)

theorem lined_true (toks : List Token) : Lined (fun _ => True) toks := fun _ _ => trivial

/-- What is ahead in a list with an end of the file has a front token. -/
theorem Ahead.eq_cons (h : Ahead toks rest) (heof : ∃ t ∈ toks, t.kind = .eof) :
    ∃ t r, rest = t :: r := by
  obtain ⟨taken, rfl, htaken⟩ := h
  cases rest with
  | cons t r => exact ⟨t, r, rfl⟩
  | nil =>
    obtain ⟨t, ht, hkind⟩ := heof
    exact absurd hkind (htaken t (by simpa using ht))

/-- In a list with an end of the file, the parser always stands at a token of the list. -/
theorem lined_of_mem (h : ∀ t ∈ toks, Q t.line) (heof : ∃ t ∈ toks, t.kind = .eof) :
    Lined Q toks := by
  intro rest hrest
  obtain ⟨t, r, rfl⟩ := hrest.eq_cons heof
  exact h t (hrest.suffix.subset (by simp))

/-! ## Parses -/

/-- The outcome of a parse of the list: it has read something with the property, or fails
at the token whose error it is. -/
def Arrives (P : α → Prop) (toks : List Token) : Except ParseError (α × List Token) → Prop
  | .ok (a, rest) => Ahead toks rest ∧ P a
  | .error e => ∃ rest, Ahead toks rest ∧ e.IsAt rest

/-- Where the parser only stands at lines `Q`, it takes tokens from the front, but not the
end of the file, and what it reads has the property. -/
def Walks (Q : Nat → Prop) (P : α → Prop) (p : Parser α) : Prop :=
  ∀ toks, Lined Q toks → Arrives P toks (p toks)

section Rules

variable {P : α → Prop} {R : β → Prop}

theorem Arrives.of_ahead {r : List Token} {x : Except ParseError (α × List Token)}
    (h : Ahead toks r) (hx : Arrives P r x) : Arrives P toks x := by
  cases x with
  | ok a => exact ⟨h.trans hx.1, hx.2⟩
  | error e =>
    obtain ⟨rest, hrest, hat⟩ := hx
    exact ⟨rest, h.trans hrest, hat⟩

/-- A parser behind tokens that are taken first. -/
theorem Walks.ahead {p : Parser α} (hp : Walks Q P p) (hl : Lined Q toks) (h : Ahead toks rest) :
    Arrives P toks (p rest) :=
  (hp rest (hl.ahead h)).of_ahead h

theorem walks_pure {a : α} (ha : P a) : Walks Q P (pure a) :=
  fun toks _ => ⟨ahead_refl toks, ha⟩

theorem walks_bind {p : Parser α} {f : α → Parser β} (hp : Walks Q P p)
    (hf : ∀ a, P a → Walks Q R (f a)) : Walks Q R (p >>= f) := by
  intro toks hl
  have h := hp toks hl
  show Arrives R toks (p toks >>= fun x => f x.1 x.2)
  cases hr : p toks with
  | ok a =>
    rw [hr] at h
    exact (hf a.1 h.2).ahead hl h.1
  | error e =>
    rw [hr] at h
    exact h

theorem walks_map {p : Parser α} {f : α → β} (hp : Walks Q P p) (hf : ∀ a, P a → R (f a)) :
    Walks Q R (f <$> p) := by
  rw [map_eq_pure_bind]
  exact walks_bind hp fun a ha => walks_pure (hf a ha)

theorem walks_ite {c : Prop} [Decidable c] {p q : Parser α} (hp : Walks Q P p)
    (hq : Walks Q P q) : Walks Q P (if c then p else q) := by
  split
  · exact hp
  · exact hq

theorem arrives_fail {fault : TokenKind → ParseFault} (h : ∀ k, (fault k).IsOf k) :
    Arrives P toks (fail fault toks) :=
  ⟨toks, ahead_refl toks, rfl, h _⟩

theorem walks_fail {fault : TokenKind → ParseFault} (h : ∀ k, (fault k).IsOf k) :
    Walks Q P (fail fault) :=
  fun _ _ => arrives_fail h

theorem walks_line : Walks Q Q line := fun toks hl => ⟨ahead_refl toks, hl.front⟩

theorem walks_peek : Walks Q (fun _ => True) peek := fun toks _ => ⟨ahead_refl toks, trivial⟩

theorem walks_check (s : Symbol) : Walks Q (fun _ => True) (check s) :=
  fun toks _ => ⟨ahead_refl toks, trivial⟩

theorem walks_expect (s : Symbol) : Walks Q (fun _ => True) (expect s) := by
  intro toks hl
  rw [expect]
  split
  · rename_i h
    exact ⟨ahead_tail_of_kind (at?_iff.1 h) (by rintro ⟨⟩), trivial⟩
  · exact arrives_fail fun _ => rfl

theorem walks_expectIdent : Walks Q (fun _ => True) expectIdent := by
  intro toks hl
  rw [expectIdent]
  split
  · rename_i h
    exact ⟨ahead_tail_of_kind h (by rintro ⟨⟩), trivial⟩
  · exact arrives_fail fun _ => rfl

theorem walks_eat (s : Symbol) : Walks Q (fun _ => True) (eat s) := by
  intro toks hl
  rw [eat]
  split
  · rename_i h
    exact ⟨ahead_tail_of_kind (at?_iff.1 h) (by rintro ⟨⟩), trivial⟩
  · exact ⟨ahead_refl toks, trivial⟩

theorem walks_some {p : Parser α} (hp : Walks Q P p) :
    Walks Q (fun o => ∀ a ∈ o, P a) (some <$> p) := by
  refine walks_map hp fun a ha => ?_
  rintro _ ⟨⟩
  exact ha

theorem walks_none : Walks Q (fun o => ∀ a ∈ o, P a) (pure none) :=
  walks_pure (by rintro _ ⟨⟩)

theorem walks_unlessAt (s : Symbol) {p : Parser α} (hp : Walks Q P p) :
    Walks Q (fun o => ∀ a ∈ o, P a) (unlessAt s p) :=
  walks_bind (walks_check s) fun _ _ => walks_ite walks_none (walks_some hp)

theorem walks_behind (s : Symbol) {p : Parser α} (hp : Walks Q P p) :
    Walks Q (fun o => ∀ a ∈ o, P a) (behind s p) :=
  walks_bind (walks_eat s) fun _ _ => walks_ite (walks_some hp) walks_none

end Rules

/-! ## Declarations -/

theorem arraySuffixes_ahead (t : Ty) (toks : List Token) :
    Ahead toks (arraySuffixes t toks).2 := by
  fun_induction arraySuffixes t toks with
  | case1 t a b r h ih =>
    rw [Bool.and_eq_true, TokenKind.isSymbol_iff, TokenKind.isSymbol_iff] at h
    have ha : a.kind ≠ .eof := by simp [h.1]
    have hb : b.kind ≠ .eof := by simp [h.2]
    exact (ahead_cons ha).trans ((ahead_cons hb).trans ih)
  | case2 t a b r => exact ahead_refl (a :: b :: r)
  | case3 t toks => exact ahead_refl toks

theorem flags_ahead (f : DeclFlags) (toks : List Token) : Ahead toks (flags f toks).2 := by
  fun_induction flags f toks with
  | case1 => exact ahead_refl []
  | case2 f t r set hset ih =>
    exact (ahead_cons (ne_eof_of_eq_some hset rfl)).trans ih
  | case3 f t r => exact ahead_refl (t :: r)

theorem walks_type : Walks Q (fun _ => True) type := by
  intro toks hl
  rw [type]
  split
  · rename_i name h
    have htail := ahead_tail (ne_eof_of_eq_some h rfl)
    exact ⟨htail.trans (arraySuffixes_ahead _ _), trivial⟩
  · exact arrives_fail fun _ => rfl

theorem walks_param : Walks Q (fun _ => True) param :=
  walks_bind (walks_eat _) fun _ _ => walks_bind walks_type fun _ _ =>
    walks_bind walks_expectIdent fun _ _ => walks_pure trivial

theorem walks_paramsRest (n : Nat) : Walks Q (fun _ => True) (paramsRest n) := by
  induction n with
  | zero => exact walks_fail fun _ => rfl
  | succ n ih =>
    refine walks_bind walks_param fun p _ => walks_bind (walks_eat _) fun closed _ => ?_
    refine walks_ite (walks_pure trivial) (walks_bind (walks_expect _) fun _ _ => ?_)
    exact walks_bind ih fun ps _ => walks_pure trivial

theorem walks_params (n : Nat) : Walks Q (fun _ => True) (params n) :=
  walks_bind (walks_eat _) fun _ _ => walks_ite (walks_pure trivial) (walks_paramsRest n)

theorem walks_members (n : Nat) : Walks Q (fun _ => True) (members n) := by
  induction n with
  | zero => exact walks_fail fun _ => rfl
  | succ n ih =>
    refine walks_bind (walks_eat _) fun closed _ => walks_ite (walks_pure trivial) ?_
    refine walks_bind walks_param fun p _ => walks_bind (walks_expect _) fun _ _ => ?_
    exact walks_bind ih fun ps _ => walks_pure trivial

theorem walks_returnType : Walks Q (fun _ => True) returnType := by
  refine walks_bind (walks_eat _) fun arrow _ => walks_ite ?_ (walks_pure trivial)
  exact walks_bind (walks_eat _) fun _ _ => walks_bind walks_type fun _ _ => walks_pure trivial

/-! ## Expressions -/

theorem walks_expressionsRest {P : Tree → Prop} {expr : Parser Tree} (he : Walks Q P expr)
    (close : Symbol) (n : Nat) :
    Walks Q (fun ts => ∀ t ∈ ts, P t) (expressionsRest expr close n) := by
  induction n with
  | zero => exact walks_fail fun _ => rfl
  | succ n ih =>
    refine walks_bind he fun t ht => walks_bind (walks_eat _) fun closed _ => ?_
    refine walks_ite (walks_pure (by simpa using ht)) (walks_bind (walks_expect _) fun _ _ => ?_)
    refine walks_bind ih fun ts hts => walks_pure ?_
    simpa using ⟨ht, hts⟩

theorem walks_expressions {P : Tree → Prop} {expr : Parser Tree} (he : Walks Q P expr)
    (close : Symbol) (n : Nat) : Walks Q (fun ts => ∀ t ∈ ts, P t) (expressions expr close n) :=
  walks_bind (walks_eat _) fun _ _ =>
    walks_ite (walks_pure (by simp)) (walks_expressionsRest he close n)

/-- The parsers of the level walk. The property holds of the statements they read, and of
the bodies of the function literals. -/
structure Grammar.Walks (Q : Nat → Prop) (S : Stmt → Prop) (G : Grammar) : Prop where
  expr : Parser.Walks Q (Tree.Bodies S) G.expr
  stmt : Parser.Walks Q S G.stmt

section Level

variable {G : Grammar} (hG : G.Walks Q S)

include hG

theorem walks_functionRest (n : Nat) (captures : Bool) (l : Nat) :
    Walks Q (fun d => S d.body) (functionRest G n captures l) := by
  refine walks_bind (walks_expect _) fun _ _ => walks_bind (walks_params n) fun ps _ => ?_
  refine walks_bind walks_returnType fun ⟨ty, returnsRef⟩ _ => ?_
  refine walks_bind (walks_check _) fun atBrace _ => ?_
  have hbody : Walks Q (fun d => S d.body) (do
      let body ← G.stmt
      return { params := ps, returnType := ty, returnsRef, captures, body, line := l } :
        Parser FunctionDef) :=
    walks_bind hG.stmt fun body hb => walks_pure hb
  cases atBrace with
  | false => exact walks_bind (P := fun _ => True) (walks_fail fun _ => rfl) fun _ _ => hbody
  | true => exact hbody

theorem walks_functionLiteral (n : Nat) : Walks Q (fun d => S d.body) (functionLiteral G n) :=
  walks_bind walks_line fun l _ => walks_bind (walks_eat _) fun captures _ =>
    walks_bind (walks_expect _) fun _ _ => walks_functionRest hG n captures l

theorem walks_primary (n : Nat) : Walks Q (Tree.Bodies S) (primary G n) := by
  -- literals and names have no parts
  have hleaf : ∀ t : Tree, t.parts = [] → (∀ d, t ≠ .function d) → t.Bodies S :=
    fun t ht hf => Tree.bodies_of_parts hf (by simp [ht])
  have hparen : Walks Q (Tree.Bodies S)
      (do let inner ← G.expr; expect (delim .rparen); return .paren inner : Parser Tree) :=
    walks_bind hG.expr fun inner hi => walks_bind (walks_expect _) fun _ _ => walks_pure <|
      Tree.bodies_of_parts (by simp) (by simpa [Tree.parts] using hi)
  have harray : Walks Q (Tree.Bodies S)
      (do return .array (← expressions G.expr (delim .rbracket) n) : Parser Tree) :=
    walks_bind (walks_expressions hG.expr _ n) fun ts hts => walks_pure <|
      Tree.bodies_of_parts (by simp) hts
  have hfunction : Walks Q (Tree.Bodies S)
      (do return .function (← functionLiteral G n) : Parser Tree) :=
    walks_bind (walks_functionLiteral hG n) fun d hd => walks_pure (Tree.bodies_function hd)
  intro toks hl
  rw [primary.eq_def]
  split
  case h_1 h | h_2 h | h_3 h | h_4 h | h_5 h =>
    exact ⟨ahead_tail_of_kind h (by rintro ⟨⟩), hleaf _ rfl (by simp)⟩
  case h_6 h => exact hparen.ahead hl (ahead_tail_of_kind h (by rintro ⟨⟩))
  case h_7 h => exact harray.ahead hl (ahead_tail_of_kind h (by rintro ⟨⟩))
  case h_8 | h_9 => exact hfunction toks hl
  case h_10 => exact arrives_fail fun _ => rfl

theorem walks_suffixes (n : Nat) {t : Tree} (ht : t.Bodies S) :
    Walks Q (Tree.Bodies S) (suffixes G n t) := by
  induction n generalizing t with
  | zero => exact walks_pure ht
  | succ n ih =>
    refine walks_bind (walks_eat _) fun atDot _ => walks_ite ?_ ?_
    · refine walks_bind walks_expectIdent fun name _ => ih ?_
      exact Tree.bodies_of_parts (by simp) (by simpa [Tree.parts] using ht)
    refine walks_bind (walks_eat _) fun atParen _ => walks_ite ?_ ?_
    · refine walks_bind (walks_expressions hG.expr _ n) fun args ha => ih ?_
      exact Tree.bodies_of_parts (by simp) (by simpa [Tree.parts] using ⟨ht, ha⟩)
    refine walks_bind (walks_eat _) fun atBracket _ => walks_ite ?_ (walks_pure ht)
    refine walks_bind hG.expr fun idx hi => walks_bind (walks_expect _) fun _ _ => ih ?_
    exact Tree.bodies_of_parts (by simp) (by simpa [Tree.parts] using ⟨ht, hi⟩)

theorem walks_operand (n : Nat) : Walks Q (Tree.Bodies S) (operand G n) :=
  walks_bind (walks_primary hG n) fun _ ht => walks_suffixes hG n ht

omit hG

theorem walks_prefixed {operand : Parser Tree} (ho : Walks Q (Tree.Bodies S) operand) :
    Walks Q (Tree.Bodies S) (prefixed operand) := by
  intro toks
  induction toks with
  | nil => exact ho []
  | cons tok r ih =>
    intro hl
    rw [prefixed]
    split
    · rename_i op hop
      have htail : Ahead (tok :: r) r := ahead_cons (ne_eof_of_eq_some hop rfl)
      refine .of_ahead htail ?_
      have h := ih (hl.ahead htail)
      cases hr : prefixed operand r with
      | ok a =>
        rw [hr] at h
        refine ⟨h.1, Tree.bodies_of_parts (by simp) ?_⟩
        simpa [Tree.parts] using h.2
      | error e =>
        rw [hr] at h
        exact h
    · exact ho _ hl

/-- Both for a chain of operators and for the operators behind its first operand. -/
theorem walks_binary_and_operators {unary : Parser Tree} (hu : Walks Q (Tree.Bodies S) unary)
    (n : Nat) : (∀ low, Walks Q (Tree.Bodies S) (binary unary n low)) ∧
      ∀ low left, left.Bodies S → Walks Q (Tree.Bodies S) (operators unary n low left) := by
  induction n with
  | zero =>
    refine ⟨fun low => ?_, fun low left hl => ?_⟩
    · rw [binary]
      exact hu
    · rw [operators]
      exact walks_pure hl
  | succ n ih =>
    refine ⟨fun low => ?_, fun low left hleft toks hl => ?_⟩
    · rw [binary]
      exact walks_bind hu fun left hl => ih.2 low left hl
    simp only [operators]
    split
    · rename_i op hop
      split
      · exact ⟨ahead_refl toks, hleft⟩
      · have hmore : Walks Q (Tree.Bodies S) (do
            let right ← binary unary n (op.precedence + 1)
            operators unary n low (.binary op left right) : Parser Tree) := by
          refine walks_bind (ih.1 _) fun right hr => ih.2 low _ ?_
          exact Tree.bodies_of_parts (by simp) (by simpa [Tree.parts] using ⟨hleft, hr⟩)
        exact hmore.ahead hl (ahead_tail (ne_eof_of_eq_some hop rfl))
    · exact ⟨ahead_refl toks, hleft⟩

include hG

theorem walks_expression (n : Nat) : Walks Q (Tree.Bodies S) (expression G n) := by
  have hbinary := (walks_binary_and_operators (walks_prefixed (walks_operand hG n)) n).1 2
  refine walks_bind hbinary fun target ht => walks_bind walks_peek fun kind _ => ?_
  split
  · refine walks_bind (walks_expect _) fun _ _ => walks_bind hG.expr fun value hv => ?_
    refine walks_pure (Tree.bodies_of_parts (by simp) ?_)
    simpa [Tree.parts] using ⟨ht, hv⟩
  · exact walks_pure ht

/-! ## Statements -/

theorem walks_lowered (n : Nat) : Walks Q (Expr.IsLoweredOf S) (lowered G n) :=
  walks_bind walks_line fun l _ => walks_bind (walks_expression hG n) fun t ht =>
    walks_pure ⟨t, l, rfl, ht⟩

theorem walks_condition (n : Nat) : Walks Q (Expr.IsLoweredOf S) (condition G n) :=
  walks_bind (walks_expect _) fun _ _ => walks_bind (walks_lowered hG n) fun _ he =>
    walks_bind (walks_expect _) fun _ _ => walks_pure he

omit hG in
theorem walks_blockRest {stmt : Parser Stmt} (hs : Walks Q S stmt) (n : Nat) :
    Walks Q (fun body => ∀ s ∈ body, S s) (blockRest stmt n) := by
  induction n with
  | zero => exact walks_fail fun _ => rfl
  | succ n ih =>
    have hmore : Walks Q (fun body => ∀ s ∈ body, S s) (do
        let s ← stmt
        return s :: (← blockRest stmt n) : Parser (List Stmt)) :=
      walks_bind hs fun s hs => walks_bind ih fun body hb => walks_pure (by simpa using ⟨hs, hb⟩)
    refine walks_bind (walks_eat _) fun closed _ => walks_ite (walks_pure (by simp)) ?_
    refine walks_bind walks_peek fun kind _ => ?_
    split
    · exact walks_bind (P := fun _ => True) (walks_fail fun _ => rfl) fun _ _ => hmore
    · exact hmore

omit hG in
theorem walks_separator : Walks Q (fun _ => True) separator := by
  intro toks hl
  rw [separator, bind_ok (check_eq_ok.2 ⟨rfl, rfl⟩)]
  cases hat : at? (delim .rparen) toks with
  | true => exact ⟨toks, ahead_refl toks, rfl, at?_iff.1 hat⟩
  | false => exact walks_expect _ toks hl

variable (hS : Stmt.Composes Q S)

include hS

omit hG in
theorem walks_classDefinition (n : Nat) : Walks Q S (classDefinition n) := by
  refine walks_bind walks_line fun l hl => walks_bind (walks_expect _) fun _ _ => ?_
  refine walks_bind walks_expectIdent fun name _ => walks_bind (walks_expect _) fun _ _ => ?_
  refine walks_bind (walks_members n) fun slots _ => walks_bind (walks_eat _) fun _ _ => ?_
  exact walks_pure (hS _ hl (by simp [Stmt.exprs]) (by simp [Stmt.parts]))

theorem walks_declaration (n : Nat) : Walks Q S (declaration G n) := by
  have hflags : Walks Q (fun _ => True) (fun toks => .ok (flags {} toks) : Parser DeclFlags) :=
    fun toks _ => ⟨flags_ahead {} toks, trivial⟩
  refine walks_bind walks_line fun l hl => walks_bind hflags fun fs _ => ?_
  refine walks_bind walks_type fun ty _ => walks_bind walks_expectIdent fun name _ => ?_
  refine walks_bind (walks_behind _ (walks_lowered hG n)) fun init hi => walks_pure ?_
  exact hS _ hl (by simpa [Stmt.exprs] using hi) (by simp [Stmt.parts])

theorem walks_expressionStmt (n : Nat) : Walks Q S (expressionStmt G n) := by
  refine walks_bind walks_line fun l hl => walks_bind (walks_expression hG n) fun t ht => ?_
  refine walks_pure (hS _ (by simpa using hl) (fun e he => ?_) (by simp))
  obtain ⟨u, hu, rfl⟩ := Tree.exprs_toStmt he
  exact ⟨u, l, rfl, ht.has hu⟩

theorem walks_simple (n : Nat) : Walks Q S (simple G n) := by
  intro toks hl
  rw [simple]
  split
  · exact walks_declaration hG hS n toks hl
  · exact walks_expressionStmt hG hS n toks hl

theorem walks_ifRest (n : Nat) {l : Nat} (hl : Q l) : Walks Q S (ifRest G n l) := by
  refine walks_bind (walks_condition hG n) fun cond hc => walks_bind hG.stmt fun t ht => ?_
  refine walks_bind (walks_behind _ hG.stmt) fun e he => walks_pure ?_
  exact hS _ hl (by simpa [Stmt.exprs] using hc) (by simpa [Stmt.parts] using ⟨ht, he⟩)

theorem walks_forRest (n : Nat) {l : Nat} (hl : Q l) : Walks Q S (forRest G n l) := by
  refine walks_bind (walks_expect _) fun _ _ => ?_
  refine walks_bind (walks_unlessAt _ (walks_simple hG hS n)) fun init hi => ?_
  refine walks_bind walks_separator fun _ _ => ?_
  refine walks_bind (walks_unlessAt _ (walks_lowered hG n)) fun cond hc => ?_
  refine walks_bind walks_separator fun _ _ => ?_
  refine walks_bind (walks_unlessAt _ (walks_expressionStmt hG hS n)) fun step hs => ?_
  refine walks_bind (walks_expect _) fun _ _ => walks_bind hG.stmt fun body hb => walks_pure ?_
  refine hS _ hl (by simpa [Stmt.exprs] using hc) fun s h => ?_
  simp only [Stmt.parts, List.mem_append, Option.mem_toList, List.mem_singleton] at h
  rcases h with (h | h) | rfl
  · exact hi s h
  · exact hs s h
  · exact hb

theorem walks_returnRest (n : Nat) {l : Nat} (hl : Q l) : Walks Q S (returnRest G n l) := by
  refine walks_bind (walks_unlessAt _ (walks_lowered hG n)) fun value hv => ?_
  refine walks_bind (walks_expect _) fun _ _ => walks_pure ?_
  exact hS _ hl (by simpa [Stmt.exprs] using hv) (by simp [Stmt.parts])

theorem walks_functionDefinition (n : Nat) : Walks Q S (functionDefinition G n) := by
  refine walks_bind walks_line fun l hl => walks_bind (walks_eat _) fun captures _ => ?_
  refine walks_bind (walks_expect _) fun _ _ => walks_bind walks_expectIdent fun name _ => ?_
  refine walks_bind (walks_functionRest hG n captures l) fun d hd => walks_pure ?_
  refine hS _ hl (fun e he => ?_) (by simp [Stmt.parts])
  -- the initialiser is the lowered function literal
  cases List.mem_singleton.1 he
  exact ⟨.function d, l, rfl, Tree.bodies_function hd⟩

theorem walks_statement (n : Nat) : Walks Q S (statement G n) := by
  have hblock {l : Nat} (hl : Q l) :
      Walks Q S (do return .block (← blockRest G.stmt n) l : Parser Stmt) :=
    walks_bind (walks_blockRest hG.stmt n) fun body hb => walks_pure <|
      hS _ hl (by simp [Stmt.exprs]) hb
  have hwhile {l : Nat} (hl : Q l) : Walks Q S (do
      let cond ← condition G n
      let body ← G.stmt
      return .whileLoop cond body l : Parser Stmt) :=
    walks_bind (walks_condition hG n) fun cond hc => walks_bind hG.stmt fun body hb =>
      walks_pure <| hS _ hl (by simpa [Stmt.exprs] using hc) (by simpa [Stmt.parts] using hb)
  have hword {s : Stmt} (hs : S s) :
      Walks Q S (do expect (delim .semicolon); return s : Parser Stmt) :=
    walks_bind (walks_expect _) fun _ _ => walks_pure hs
  -- statements that hold no expressions and no statements
  have hplain {s : Stmt} (hl : Q s.line) (he : s.exprs = []) (hp : s.parts = []) : S s :=
    hS s hl (by simp [he]) (by simp [hp])
  have hsimple : Walks Q S
      (do let s ← simple G n; expect (delim .semicolon); return s : Parser Stmt) :=
    walks_bind (walks_simple hG hS n) fun s hs => hword hs
  intro toks hl
  simp only [statement]
  split
  case h_1 h => exact (hblock hl.front).ahead hl (ahead_tail_of_kind h (by rintro ⟨⟩))
  case h_2 h =>
    exact (walks_ifRest hG hS n hl.front).ahead hl (ahead_tail_of_kind h (by rintro ⟨⟩))
  case h_3 h => exact (hwhile hl.front).ahead hl (ahead_tail_of_kind h (by rintro ⟨⟩))
  case h_4 h =>
    exact (walks_forRest hG hS n hl.front).ahead hl (ahead_tail_of_kind h (by rintro ⟨⟩))
  case h_5 h | h_6 h =>
    refine (hword ?_).ahead hl (ahead_tail_of_kind h (by rintro ⟨⟩))
    exact hplain (by exact hl.front) rfl rfl
  case h_7 h =>
    exact (walks_returnRest hG hS n hl.front).ahead hl (ahead_tail_of_kind h (by rintro ⟨⟩))
  case h_8 h => exact ⟨ahead_tail_of_kind h (by rintro ⟨⟩), hplain hl.front rfl rfl⟩
  case h_9 =>
    split
    · exact walks_classDefinition hS n toks hl
    · split
      · exact walks_functionDefinition hG hS n toks hl
      · exact hsimple toks hl

end Level

/-! ## Programs -/

/-- Every nesting level walks. -/
theorem walks_grammar (hS : Stmt.Composes Q S) : ∀ n, (grammar n).Walks Q S
  | 0 => ⟨walks_fail fun _ => rfl, walks_fail fun _ => rfl⟩
  | n + 1 =>
    have ih := walks_grammar hS n
    ⟨walks_expression ih n, walks_statement ih hS n⟩

theorem walks_statements {stmt : Parser Stmt} (hs : Walks Q S stmt) (n : Nat) :
    Walks Q (fun body => ∀ s ∈ body, S s) (statements stmt n) := by
  induction n with
  | zero => exact walks_pure (by simp)
  | succ n ih =>
    refine walks_bind walks_peek fun kind _ => ?_
    split
    · exact walks_pure (by simp)
    · exact walks_bind hs fun s hs => walks_bind ih fun body hb =>
        walks_pure (by simpa using ⟨hs, hb⟩)

/-! ## Function literals -/

theorem Walks.suffix {p : Parser α} {P : α → Prop} {a : α} (hp : Walks (fun _ => True) P p)
    (h : p toks = .ok (a, rest)) : rest <:+ toks := by
  have hwalks := hp toks (lined_true toks)
  rw [h] at hwalks
  exact hwalks.1.suffix

/-- The levels of the grammar, of which nothing is asked but that they walk. -/
theorem walks_grammar_true (n : Nat) : (grammar n).Walks (fun _ => True) fun _ => True :=
  walks_grammar (fun _ _ _ _ => trivial) n

theorem functionLiteral_suffix {n : Nat} {d : FunctionDef}
    (h : functionLiteral (grammar n) n toks = .ok (d, rest)) : rest <:+ toks :=
  (walks_functionLiteral (walks_grammar_true n) n).suffix h

/-- A function literal takes its first token, which is one of two words. -/
theorem functionLiteral_cons {n : Nat} {d : FunctionDef}
    (h : functionLiteral (grammar n) n toks = .ok (d, rest)) :
    ∃ tok toks', toks = tok :: toks' ∧ rest <:+ toks' ∧
      (tok.kind = .symbol (kw .func) ∨ tok.kind = .symbol (kw .closure)) := by
  obtain ⟨l, r, hl, hfrom⟩ := bind_apply_eq_ok.1 h
  obtain ⟨captures, r₁, hc, hword⟩ := bind_apply_eq_ok.1 hfrom
  obtain ⟨_, r₂, hf, hbehind⟩ := bind_apply_eq_ok.1 hword
  have hrest := (walks_functionRest (walks_grammar_true n) n captures l).suffix hbehind
  obtain ⟨-, rfl⟩ := line_eq_ok.1 hl
  obtain ⟨tok, rfl, hfunc⟩ := expect_eq_ok.1 hf
  rcases eat_eq_ok.1 hc with ⟨-, tok', rfl, hclosure⟩ | ⟨-, -, rfl⟩
  · exact ⟨tok', _, rfl, hrest.trans (List.suffix_cons tok r₂), .inr hclosure⟩
  · exact ⟨tok, r₂, rfl, hrest, .inl hfunc⟩

end Parser

/-! ## Parsed programs -/

section Parse

variable {Q : Nat → Prop} {S : Stmt → Prop} {name : String} {tokens : List Token}

theorem parse_arrives (name : String) (hS : Stmt.Composes Q S) (hl : Parser.Lined Q tokens) :
    match parse name tokens with
    | .ok p => ∀ s ∈ p.statements, S s
    | .error e => Q e.line := by
  have h := Parser.walks_statements (Parser.walks_grammar hS (tokens.length + 1)).stmt
    (tokens.length + 1) tokens hl
  rw [parse]
  cases hr : Parser.statements (Parser.grammar (tokens.length + 1)).stmt (tokens.length + 1)
      tokens with
  | ok a =>
    rw [hr] at h
    exact h.2
  | error e =>
    rw [hr] at h
    obtain ⟨rest, hrest, hat⟩ := h
    show Q e.line
    rw [hat.1]
    exact hl rest hrest

theorem isLowered_of_parse {p : Program} (h : parse name tokens = .ok p) :
    ∀ s ∈ p.statements, s.IsLowered := by
  have harrives := parse_arrives name Stmt.composes_isLowered (Parser.lined_true tokens)
  rwa [h] at harrives

/-- The statements of a parsed program, at any depth, are on lines of tokens. -/
theorem contains_of_parse {p : Program} (h : parse name tokens = .ok p)
    (hl : Parser.Lined Q tokens) {s : Stmt} (hs : p.Contains s) : Q s.line := by
  have harrives := parse_arrives name (Stmt.composes_lines Q) hl
  rw [h] at harrives
  obtain ⟨t, ht, hs⟩ := hs
  exact harrives t ht s hs

/-- The error of a parse is on the line of a token. -/
theorem line_of_parse_error {e : ParseError} (h : parse name tokens = .error e)
    (hl : Parser.Lined Q tokens) : Q e.line := by
  have harrives := parse_arrives name (Stmt.composes_lines Q) hl
  rwa [h] at harrives

end Parse

end HeapScript
