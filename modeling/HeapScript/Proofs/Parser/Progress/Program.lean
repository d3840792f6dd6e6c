import HeapScript.Proofs.Parser.Progress.Grammar

/-!
# Progress through a whole list of tokens

* `Routine` are the parsers of the grammar. `Routine.goes`: none of them goes back, or past
  the end of the file, and where it fails, the error is that of the token it stands at.
* `FailsHere` and `Takes`: some fail where they began, and some always go forward.
* `Loop.ends`: no loop with a bound on its rounds comes to this bound, if it is above the
  number of tokens. What the loop does there, and how far above the bound is, makes no
  difference. `levels_end` says so of the bound on the depth, and `statements_eq` of both
  together. `flags_ends` and `arraySuffixes_ends` are about the two loops without a bound.
* `parse_stays_inside` is all of this, with the parse of a list that ends in an end of the
  file.
-/

namespace HeapScript

namespace Parser

variable {α : Type} {toks rest : List Token}

/-! ## Where the parsers go -/

/-- The parsers of which the grammar is made, at any depth and any bound. -/
inductive Routine : {α : Type} → Parser α → Prop
  | peek : Routine peek
  | line : Routine line
  | check (s : Symbol) : Routine (check s)
  | eat (s : Symbol) : Routine (eat s)
  | expect (s : Symbol) : Routine (expect s)
  | expectIdent : Routine expectIdent
  | unlessAt {α : Type} {p : Parser α} (s : Symbol) (hp : Routine p) : Routine (unlessAt s p)
  | behind {α : Type} {p : Parser α} (s : Symbol) (hp : Routine p) : Routine (behind s p)
  | type : Routine type
  | arraySuffixes (t : Ty) : Routine (fun toks => .ok (arraySuffixes t toks) : Parser Ty)
  | flags (f : DeclFlags) : Routine (fun toks => .ok (flags f toks) : Parser DeclFlags)
  | param : Routine param
  | paramsRest (n : Nat) : Routine (paramsRest n)
  | params (n : Nat) : Routine (params n)
  | members (n : Nat) : Routine (members n)
  | classDefinition (n : Nat) : Routine (classDefinition n)
  | returnType : Routine returnType
  | expressionsRest (m n : Nat) (close : Symbol) :
    Routine (expressionsRest (grammar m).expr close n)
  | expressions (m n : Nat) (close : Symbol) : Routine (expressions (grammar m).expr close n)
  | functionRest (m n : Nat) (captures : Bool) (l : Nat) :
    Routine (functionRest (grammar m) n captures l)
  | functionLiteral (m n : Nat) : Routine (functionLiteral (grammar m) n)
  | primary (m n : Nat) : Routine (primary (grammar m) n)
  | suffixes (m n : Nat) (t : Tree) : Routine (suffixes (grammar m) n t)
  | operand (m n : Nat) : Routine (operand (grammar m) n)
  | prefixed (m n : Nat) : Routine (prefixed (operand (grammar m) n))
  | binary (m i n low : Nat) : Routine (binary (prefixed (operand (grammar m) i)) n low)
  | operators (m i n low : Nat) (left : Tree) :
    Routine (operators (prefixed (operand (grammar m) i)) n low left)
  | expression (m n : Nat) : Routine (expression (grammar m) n)
  | lowered (m n : Nat) : Routine (lowered (grammar m) n)
  | declaration (m n : Nat) : Routine (declaration (grammar m) n)
  | expressionStmt (m n : Nat) : Routine (expressionStmt (grammar m) n)
  | simple (m n : Nat) : Routine (simple (grammar m) n)
  | blockRest (m n : Nat) : Routine (blockRest (grammar m).stmt n)
  | condition (m n : Nat) : Routine (condition (grammar m) n)
  | ifRest (m n l : Nat) : Routine (ifRest (grammar m) n l)
  | separator : Routine separator
  | forRest (m n l : Nat) : Routine (forRest (grammar m) n l)
  | returnRest (m n l : Nat) : Routine (returnRest (grammar m) n l)
  | functionDefinition (m n : Nat) : Routine (functionDefinition (grammar m) n)
  | statement (m n : Nat) : Routine (statement (grammar m) n)
  | expr (m : Nat) : Routine (grammar m).expr
  | stmt (m : Nat) : Routine (grammar m).stmt
  | statements (m n : Nat) : Routine (statements (grammar m).stmt n)

/-- The parser goes through its tokens as `Walks` says, wherever it stands and whatever is
known of what it reads. -/
def Goes (p : Parser α) : Prop := ∃ P : α → Prop, Walks (fun _ => True) P p

theorem Walks.goes {P : α → Prop} {p : Parser α} (h : Walks (fun _ => True) P p) : Goes p :=
  ⟨P, h⟩

theorem Goes.arrives {p : Parser α} (h : Goes p) (toks : List Token) :
    Arrives (fun _ => True) toks (p toks) := by
  obtain ⟨P, hp⟩ := h
  have harrives := hp toks (lined_true toks)
  cases hr : p toks with
  | ok x =>
    rw [hr] at harrives
    exact ⟨harrives.1, trivial⟩
  | error e =>
    rw [hr] at harrives
    exact harrives

theorem Routine.goes {p : Parser α} (h : Routine p) : Goes p := by
  have hG (m : Nat) := walks_grammar_true m
  have hS : Stmt.Composes (fun _ => True) fun _ => True := fun _ _ _ _ => trivial
  have hunary (m i : Nat) := walks_prefixed (walks_operand (hG m) i)
  induction h with
  | peek => exact walks_peek.goes
  | line => exact walks_line.goes
  | check s => exact (walks_check s).goes
  | eat s => exact (walks_eat s).goes
  | expect s => exact (walks_expect s).goes
  | expectIdent => exact walks_expectIdent.goes
  | unlessAt s _ ih =>
    obtain ⟨P, hp⟩ := ih
    exact (walks_unlessAt s hp).goes
  | behind s _ ih =>
    obtain ⟨P, hp⟩ := ih
    exact (walks_behind s hp).goes
  | type => exact walks_type.goes
  | arraySuffixes t => exact ⟨fun _ => True, fun toks _ => ⟨arraySuffixes_ahead t toks, trivial⟩⟩
  | flags f => exact ⟨fun _ => True, fun toks _ => ⟨flags_ahead f toks, trivial⟩⟩
  | param => exact walks_param.goes
  | paramsRest n => exact (walks_paramsRest n).goes
  | params n => exact (walks_params n).goes
  | members n => exact (walks_members n).goes
  | classDefinition n => exact (walks_classDefinition hS n).goes
  | returnType => exact walks_returnType.goes
  | expressionsRest m n close => exact (walks_expressionsRest (hG m).expr close n).goes
  | expressions m n close => exact (walks_expressions (hG m).expr close n).goes
  | functionRest m n captures l => exact (walks_functionRest (hG m) n captures l).goes
  | functionLiteral m n => exact (walks_functionLiteral (hG m) n).goes
  | primary m n => exact (walks_primary (hG m) n).goes
  | suffixes m n t => exact (walks_suffixes (hG m) n (t := t) fun _ _ => trivial).goes
  | operand m n => exact (walks_operand (hG m) n).goes
  | prefixed m n => exact (hunary m n).goes
  | binary m i n low => exact ((walks_binary_and_operators (hunary m i) n).1 low).goes
  | operators m i n low left =>
    exact ((walks_binary_and_operators (hunary m i) n).2 low left fun _ _ => trivial).goes
  | expression m n => exact (walks_expression (hG m) n).goes
  | lowered m n => exact (walks_lowered (hG m) n).goes
  | declaration m n => exact (walks_declaration (hG m) hS n).goes
  | expressionStmt m n => exact (walks_expressionStmt (hG m) hS n).goes
  | simple m n => exact (walks_simple (hG m) hS n).goes
  | blockRest m n => exact (walks_blockRest (hG m).stmt n).goes
  | condition m n => exact (walks_condition (hG m) n).goes
  | ifRest m n l => exact (walks_ifRest (hG m) hS n trivial).goes
  | separator => exact walks_separator.goes
  | forRest m n l => exact (walks_forRest (hG m) hS n trivial).goes
  | returnRest m n l => exact (walks_returnRest (hG m) hS n trivial).goes
  | functionDefinition m n => exact (walks_functionDefinition (hG m) hS n).goes
  | statement m n => exact (walks_statement (hG m) hS n).goes
  | expr m => exact (hG m).expr.goes
  | stmt m => exact (hG m).stmt.goes
  | statements m n => exact (walks_statements (hG m).stmt n).goes

/-- Where the parser fails, it is at the token at which it began. -/
def FailsHere (p : Parser α) : Prop := ∀ toks e, p toks = .error e → e.IsAt toks

theorem failsHere_expect (s : Symbol) : FailsHere (expect s) := by
  intro toks e h
  rw [expect] at h
  split at h
  · cases h
  · cases h
    exact ⟨rfl, rfl⟩

theorem failsHere_expectIdent : FailsHere expectIdent := by
  intro toks e h
  rw [expectIdent] at h
  split at h
  · cases h
  · cases h
    exact ⟨rfl, rfl⟩

theorem failsHere_type : FailsHere type := by
  intro toks e h
  rw [type] at h
  split at h
  · cases h
  · cases h
    exact ⟨rfl, rfl⟩

theorem failsHere_separator : FailsHere separator := by
  intro toks e h
  rw [separator, bind_ok (check_eq_ok.2 ⟨rfl, rfl⟩)] at h
  cases hat : at? (delim .rparen) toks with
  | true =>
    rw [hat] at h
    cases h
    exact ⟨rfl, at?_iff.1 hat⟩
  | false =>
    rw [hat] at h
    exact failsHere_expect _ toks e h

/-- Where the parser succeeds, it has taken a token. -/
def Takes (p : Parser α) : Prop :=
  ∀ toks a rest, p toks = .ok (a, rest) → rest.length < toks.length

theorem Goes.takes {p : Parser α} (hp : Goes p) (h : ∀ k, Agree k 1 p p) : Takes p := by
  intro toks a rest hr
  have hahead := hp.arrives toks
  rw [hr] at hahead
  exact hahead.1.length_lt ((h _ toks (Nat.lt_succ_self _)).2 a rest hr)

theorem grammar_takes (m : Nat) : Takes (grammar m).stmt ∧ Takes (grammar m).expr := by
  have hagree (k : Nat) : AgreeGrammar k (grammar m) (grammar m) := agree_grammar (.refl (k + 1) m)
  exact ⟨(Routine.stmt m).goes.takes fun k => (hagree k).stmt,
    (Routine.expr m).goes.takes fun k => (hagree k).expr⟩

/-! ## Loops -/

/-- Each round of a loop takes a token before the loop goes on. -/
theorem Loop.advances {ι : Type} {F : Round ι α} {f : Nat → ι → Parser α} (h : Loop F f) (k : Nat) :
    Advances k F F := by
  intro j _ n m g g' he hmore i
  have hG (l : Nat) : AgreeGrammar (j + 1) (grammar l) (grammar l) :=
    agree_grammar (.refl (j + 1 + 1) l)
  cases h with
  | paramsRest => exact (agree_paramsRound (hmore ())).loose
  | members => exact (agree_membersRound (hmore ())).loose
  | expressionsRest l close => exact (agree_expressionsRound close (hG l).expr (hmore ())).loose
  | suffixes l => exact agree_suffixesRound ((hG l).mono (Nat.le_succ j)) he hmore i
  | chain l l' =>
    have hoperand := agree_operand ((hG l).mono (Nat.le_succ j)) (.refl (j + 1) l')
    exact agree_chainRound (agree_prefixed hoperand) hmore i
  | blockRest l => exact (agree_blockRound (hG l).stmt (hmore ())).loose
  | statements l => exact agree_statementsRound (hG l).stmt (hmore ())

/-- A loop does not come to a bound that is above the number of tokens. -/
theorem Loop.ends {ι : Type} {F : Round ι α} {f : Nat → ι → Parser α} (h : Loop F f) {n m : Nat}
    (hn : tokensLeft toks < n) (hm : tokensLeft toks < m) (q q' : ι → Parser α) (i : ι) :
    rounds F q n i toks = rounds F q' m i toks :=
  (agree_rounds (h.advances _) q q' hn hm i toks (Nat.lt_succ_self _)).1

/-- The nesting does not come to the innermost level, if that is further in than there are
tokens. -/
theorem levels_end {n m : Nat} (hn : tokensLeft toks + 1 < n) (hm : tokensLeft toks + 1 < m)
    (G G' : Grammar) : (levels G n).stmt toks = (levels G' m).stmt toks ∧
      (levels G n).expr toks = (levels G' m).expr toks :=
  have hagree := agree_levels G G' hn hm
  ⟨(hagree.stmt toks (Nat.lt_succ_self _)).1, (hagree.expr toks (Nat.lt_succ_self _)).1⟩

/-- The loop over the flags of a declaration ends at a token that is no flag. -/
theorem flags_ends (f : DeclFlags) (toks : List Token) :
    flag? (front (flags f toks).2).kind = none := by
  fun_induction flags f toks with
  | case1 => rfl
  | case2 f t r set hset ih => exact ih
  | case3 f t r hset => exact hset

/-- The loop over the brackets behind a type ends where no pair of brackets is at the front. -/
theorem arraySuffixes_ends (t : Ty) (toks : List Token) {a b : Token} {r : List Token}
    (h : (arraySuffixes t toks).2 = a :: b :: r) :
    ¬(a.kind = .symbol (delim .lbracket) ∧ b.kind = .symbol (delim .rbracket)) := by
  fun_induction arraySuffixes t toks with
  | case1 t a' b' r' hpair ih => exact ih h
  | case2 t a' b' r' hpair =>
    cases h
    rwa [Bool.and_eq_true, TokenKind.isSymbol_iff, TokenKind.isSymbol_iff] at hpair
  | case3 t toks hshort =>
    cases h
    exact absurd rfl (hshort a b r)

/-! ## Whole lists -/

/-- The statements of a program end at the end of the file, if the bound is large enough. -/
theorem statements_at_end {stmt : Parser Stmt} (hs : ∀ k, Agree k 1 stmt stmt) {n : Nat}
    {body : List Stmt} (hn : tokensLeft toks < n) (h : statements stmt n toks = .ok (body, rest)) :
    (front rest).kind = .eof := by
  induction n generalizing toks body with
  | zero => exact absurd hn (Nat.not_lt_zero _)
  | succ n ih =>
    rw [statements, bind_peek] at h
    split at h
    · rename_i heof
      obtain ⟨-, rfl⟩ := pure_apply_eq_ok.1 h
      exact heof
    · obtain ⟨s, r, hstmt, h⟩ := bind_apply_eq_ok.1 h
      obtain ⟨body', r', hrest, h⟩ := bind_apply_eq_ok.1 h
      obtain ⟨-, rfl⟩ := pure_apply_eq_ok.1 h
      have htaken := (hs _ toks (Nat.lt_succ_self _)).2 s r hstmt
      exact ih (by omega) hrest

/-- How a run over a whole list ends: it has come to the first end of the file, or it fails
at a token that is not behind that one, with the error of this token. -/
def EndsInside (tokens : List Token) : Except ParseError (List Stmt × List Token) → Prop
  | .ok (_, rest) => ∃ t r, rest = t :: r ∧ Ahead tokens (t :: r) ∧ t.kind = .eof
  | .error e => ∃ t r, Ahead tokens (t :: r) ∧ e.IsAt (t :: r)

theorem statements_endsInside (heof : ∃ t ∈ toks, t.kind = .eof) (m : Nat) {n : Nat}
    (hn : toks.length < n) : EndsInside toks (statements (grammar m).stmt n toks) := by
  have harrives := (Routine.statements m n).goes.arrives toks
  cases hr : statements (grammar m).stmt n toks with
  | ok x =>
    obtain ⟨body, rest⟩ := x
    rw [hr] at harrives
    obtain ⟨t, r, rfl⟩ := harrives.1.eq_cons heof
    have hleft := Nat.lt_trans (tokensLeft_lt_length heof) hn
    have hstmt (k : Nat) := (agree_grammar (.refl (k + 1) m)).stmt
    exact ⟨t, r, rfl, harrives.1, statements_at_end hstmt hleft hr⟩
  | error e =>
    rw [hr] at harrives
    obtain ⟨rest, hahead, hat⟩ := harrives
    obtain ⟨t, r, rfl⟩ := hahead.eq_cons heof
    exact ⟨t, r, hahead, hat⟩

/-- A run over a whole list comes neither to its bound nor to the innermost level, if both
are above the number of tokens. -/
theorem statements_eq (heof : ∃ t ∈ toks, t.kind = .eof) {n m n' m' : Nat}
    (hn : toks.length < n) (hm : toks.length < m) (hn' : toks.length < n')
    (hm' : toks.length < m') (G G' : Grammar) (q q' : Unit → Parser (List Stmt)) :
    rounds (.plain (statementsRound (levels G m).stmt)) q n () toks =
      rounds (.plain (statementsRound (levels G' m').stmt)) q' n' () toks := by
  have hstmt := (agree_levels (k := toks.length + 1) G G' hm hm').stmt
  have hadvances : Advances toks.length (.plain (statementsRound (levels G m).stmt))
      (.plain (statementsRound (levels G' m').stmt)) := fun j hj _ _ _ _ _ hmore _ =>
    agree_statementsRound (hstmt.shorter hj) (hmore ())
  exact (agree_rounds hadvances q q' (Nat.le_of_lt hn) (Nat.le_of_lt hn') () toks
    (tokensLeft_lt_length heof)).1

/-- The statements of a program are such a loop inside such levels. -/
theorem statements_eq_rounds (n m : Nat) : statements (grammar m).stmt n =
    rounds (.plain (statementsRound (levels (grammar 0) m).stmt))
      (fun _ => statements (grammar m).stmt 0) n () := by
  rw [← grammar_eq_levels]
  exact congrFun (congrFun (Loop.statements m).eq_rounds n) ()

end Parser

open HeapScript.Parser

theorem parse_eq_map (name : String) (tokens : List Token) :
    parse name tokens =
      (statements (grammar (tokens.length + 1)).stmt (tokens.length + 1) tokens).map
        fun x => ⟨name, x.1⟩ := by
  rw [parse]
  split <;> rename_i h <;> rw [h] <;> rfl

/-- The parse of a list of tokens that ends in an end of the file makes progress and stays
inside the list.

* It comes to an end: whatever the bounds on statements and on nesting, if they are above
  the number of tokens, and whatever would be done at them, the outcome is the same one, a
  program or an error. The program is complete at the first end of the file. The error is
  that of a token not behind it.
* No parser of the grammar goes back or takes an end of the file, and where it fails, the
  error is that of the token it stands at. A single step, a type and a separator of a `for`
  fail at the token at which they began.
* Where a statement, an expression, a type or a parameter is read, a token is taken.
* Each loop goes on by rounds and does not come to its bound, if that is above the number of
  tokens that are left: with any parsers in the place of what is done there, and any other
  such bound, it does the same. Neither does nesting come to the innermost level. The loops
  without a bound stop at what they do not take. -/
theorem parse_stays_inside (name : String) {tokens : List Token}
    (hlast : ∃ t ∈ tokens.getLast?, t.kind = .eof) :
    (∃ outcome, (∀ n m, tokens.length < n → tokens.length < m →
        statements (grammar m).stmt n tokens = outcome ∧
        ∀ G q, rounds (.plain (statementsRound (levels G m).stmt)) q n () tokens = outcome) ∧
      parse name tokens = outcome.map (fun x => ⟨name, x.1⟩) ∧ EndsInside tokens outcome) ∧
    (∀ {α : Type} {p : Parser α}, Routine p → ∀ toks, Arrives (fun _ => True) toks (p toks)) ∧
    ((∀ s, FailsHere (expect s)) ∧ FailsHere expectIdent ∧ FailsHere type ∧
      FailsHere separator) ∧
    ((∀ m, Takes (grammar m).stmt ∧ Takes (grammar m).expr) ∧ Takes type ∧ Takes param) ∧
    (∀ {ι α : Type} {F : Round ι α} {f : Nat → ι → Parser α}, Loop F f → f = rounds F (f 0) ∧
      ∀ toks n m, tokensLeft toks < n → tokensLeft toks < m → ∀ q q' i,
        rounds F q n i toks = rounds F q' m i toks) ∧
    (grammar = levels (grammar 0) ∧
      ∀ toks n m, tokensLeft toks + 1 < n → tokensLeft toks + 1 < m → ∀ G G',
        (levels G n).stmt toks = (levels G' m).stmt toks ∧
          (levels G n).expr toks = (levels G' m).expr toks) ∧
    (∀ f toks, flag? (front (flags f toks).2).kind = none) ∧
    ∀ t toks a b r, (arraySuffixes t toks).2 = a :: b :: r →
      ¬(a.kind = .symbol (delim .lbracket) ∧ b.kind = .symbol (delim .rbracket)) := by
  have heof : ∃ t ∈ tokens, t.kind = .eof := by
    obtain ⟨t, ht, hkind⟩ := hlast
    exact ⟨t, List.mem_of_getLast? ht, hkind⟩
  have hlt := Nat.lt_succ_self tokens.length
  refine ⟨⟨_, fun n m hn hm => ?_, parse_eq_map name tokens, statements_endsInside heof _ hlt⟩,
    fun hp => hp.goes.arrives,
    ⟨failsHere_expect, failsHere_expectIdent, failsHere_type, failsHere_separator⟩,
    ⟨grammar_takes, ?_, ?_⟩, fun h => ⟨h.eq_rounds, fun toks n m hn hm q q' => h.ends hn hm q q'⟩,
    ⟨grammar_eq_levels, fun toks n m hn hm => levels_end hn hm⟩, flags_ends, ?_⟩
  · rw [statements_eq_rounds n m, statements_eq_rounds (tokens.length + 1) (tokens.length + 1)]
    have hsame := statements_eq heof hn hm hlt hlt
    exact ⟨hsame _ _ _ _, fun G q => hsame G _ q _⟩
  · exact Routine.type.goes.takes fun _ => agree_type
  · exact Routine.param.goes.takes fun _ => agree_param
  · exact fun t toks a b r => arraySuffixes_ends t toks

/-- `f(a` with more tokens behind the end of the file. -/
def cutOff : List Token :=
  [⟨.ident "f", "f", 1⟩, ⟨.symbol (delim .lparen), "(", 1⟩, ⟨.ident "a", "a", 1⟩, ⟨.eof, "", 2⟩,
    ⟨.symbol (delim .rparen), ")", 3⟩, ⟨.symbol (delim .semicolon), ";", 3⟩, ⟨.eof, "", 4⟩]

/-- The call is cut off at the first end of the file, whatever stands behind, however large
the bounds are and whatever would be done at them. -/
theorem parse_stays_inside_cutOff :
    (∃ t ∈ cutOff.getLast?, t.kind = .eof) ∧
    parse "" cutOff = .error ⟨.unexpectedToken (.symbol (delim .comma)) .eof, 2⟩ ∧
    ∀ n m, cutOff.length < n → cutOff.length < m →
      statements (grammar m).stmt n cutOff =
        .error ⟨.unexpectedToken (.symbol (delim .comma)) .eof, 2⟩ ∧
      ∀ G q, rounds (.plain (statementsRound (levels G m).stmt)) q n () cutOff =
        .error ⟨.unexpectedToken (.symbol (delim .comma)) .eof, 2⟩ := by
  have hlast : ∃ t ∈ cutOff.getLast?, t.kind = .eof := ⟨_, rfl, rfl⟩
  obtain ⟨⟨outcome, hsame, -, -⟩, -⟩ := parse_stays_inside "" hlast
  have houtcome : outcome = .error ⟨.unexpectedToken (.symbol (delim .comma)) .eof, 2⟩ :=
    (hsame 8 8 (by decide) (by decide)).1.symm.trans rfl
  rw [houtcome] at hsame
  exact ⟨hlast, rfl, hsame⟩

end HeapScript
