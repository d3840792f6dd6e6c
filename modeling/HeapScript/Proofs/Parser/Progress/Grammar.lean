import HeapScript.Proofs.Parser.Progress.Rounds

/-!
# Progress through the grammar

* `agree_type`, `agree_param` and the lemmas after them are one for each parser that reads
  no statement and no expression.
* `AgreeGrammar`: the parsers of two nesting levels agree and take a token. The level is
  entered behind a first token, so it need agree where one token less is left.
* `agree_expression`, `agree_statement`: so do those of the next level.
* `agree_paramsRound` and its like are about one round of a loop, which takes a token
  before the loop goes on.
* `agree_grammar`: levels agree that are deep enough, and `agree_levels` whatever the
  innermost ones do.
-/

namespace HeapScript.Parser

variable {k n m : Nat}

/-! ## Declarations -/

theorem agree_type : Agree k 1 type type := by
  refine agree_self fun toks a rest hr => ?_
  rw [type] at hr
  split at hr
  · rename_i name h
    have hsuffixes := (arraySuffixes_ahead (.named name) toks.tail).tokensLeft_le
    rw [Except.ok.inj hr] at hsuffixes
    rw [tokensLeft_tail (ne_eof_of_eq_some h rfl)]
    exact Nat.succ_le_succ hsuffixes
  · cases hr

theorem agree_param : Agree k 1 param param := by
  refine agree_eat_any fun isRef => ?_
  exact agree_bind agree_type fun ty => agree_bind_pure agree_expectIdent.loose

theorem agree_paramsRound {p q : Parser (List Param)} (hmore : Agree k 0 p q) :
    Agree (k + 1) 1 (paramsRound p) (paramsRound q) := by
  refine agree_bind agree_param fun p => ?_
  refine agree_eat (agree_pure [p]) ?_
  refine agree_bind (agree_expect _).loose fun _ => ?_
  exact agree_bind_pure (hmore.shorter (by omega))

theorem agree_paramsRest (h : Enough k n m) : Agree k 1 (paramsRest n) (paramsRest m) := by
  induction h with
  | none => exact agree_zero
  | same => exact agree_fail _
  | succ _ ih => exact agree_paramsRound ih.loose

theorem agree_params (h : Enough k n m) : Agree k 1 (params n) (params m) :=
  agree_eat (agree_pure []) (agree_paramsRest h)

theorem agree_membersRound {p q : Parser (List Param)} (hmore : Agree k 0 p q) :
    Agree (k + 1) 1 (membersRound p) (membersRound q) := by
  refine agree_eat (agree_pure []) ?_
  refine agree_bind agree_param fun p => ?_
  refine agree_bind (agree_expect _).loose fun _ => ?_
  exact agree_bind_pure (hmore.shorter (by omega))

theorem agree_members (h : Enough k n m) : Agree k 1 (members n) (members m) := by
  induction h with
  | none => exact agree_zero
  | same => exact agree_fail _
  | succ _ ih => exact agree_membersRound ih.loose

theorem agree_classDefinition (h : Enough k n m) :
    Agree k 1 (classDefinition n) (classDefinition m) := by
  refine agree_line fun l => agree_bind (agree_expect _) fun _ => ?_
  refine agree_bind agree_expectIdent.loose fun name => ?_
  refine agree_bind (agree_expect _).loose fun _ => ?_
  refine agree_bind (agree_members (h.mono (by omega))).loose fun slots => ?_
  exact agree_eat_any fun _ => agree_pure _

theorem agree_returnType : Agree k 0 returnType returnType :=
  agree_eat (agree_eat_any fun _ => agree_bind_pure agree_type.loose) (agree_pure _)

/-! ## Expressions -/

theorem agree_expressionsRound {expr expr' : Parser Tree} {p q : Parser (List Tree)}
    (close : Symbol) (he : Agree (k + 1) 1 expr expr') (hmore : Agree k 0 p q) :
    Agree (k + 1) 1 (expressionsRound expr close p) (expressionsRound expr' close q) := by
  refine agree_bind he fun t => ?_
  refine agree_eat (agree_pure [t]) ?_
  refine agree_bind (agree_expect _).loose fun _ => ?_
  exact agree_bind_pure (hmore.shorter (by omega))

theorem agree_expressionsRest {expr expr' : Parser Tree} (close : Symbol)
    (he : Agree k 1 expr expr') (h : Enough k n m) :
    Agree k 1 (expressionsRest expr close n) (expressionsRest expr' close m) := by
  induction h with
  | none => exact agree_zero
  | same => exact agree_fail _
  | succ _ ih =>
    exact agree_expressionsRound close he (ih (he.shorter (Nat.le_succ _))).loose

theorem agree_expressions {expr expr' : Parser Tree} (close : Symbol)
    (he : Agree k 1 expr expr') (h : Enough k n m) :
    Agree k 1 (expressions expr close n) (expressions expr' close m) :=
  agree_eat (agree_pure []) (agree_expressionsRest close he h)

/-- The parsers of two levels agree where fewer than `k` tokens are left. -/
structure AgreeGrammar (k : Nat) (G G' : Grammar) : Prop where
  expr : Agree k 1 G.expr G'.expr
  stmt : Agree k 1 G.stmt G'.stmt

section Level

variable {G G' : Grammar}

theorem AgreeGrammar.mono {k' : Nat} (h : AgreeGrammar k G G') (hk : k' ≤ k) :
    AgreeGrammar k' G G' :=
  ⟨h.expr.shorter hk, h.stmt.shorter hk⟩

/-- The bound and the level are enough behind a first token. -/
theorem agree_suffixesRound (hG : AgreeGrammar k G G') (h : Enough k n m)
    {g g' : Tree → Parser Tree} (hmore : ∀ t, Agree k 0 (g t) (g' t)) (t : Tree) :
    Agree (k + 1) 0 (suffixesRound G n g t) (suffixesRound G' m g' t) := by
  refine agree_eat ?_ (agree_eat ?_ (agree_eat ?_ (agree_pure t)))
  · exact agree_bind agree_expectIdent.loose fun name => hmore _
  · have hargs := agree_expressions (delim .rparen) hG.expr h
    exact agree_bind hargs.loose fun args => hmore _
  · refine agree_bind hG.expr.loose fun idx => ?_
    exact agree_bind (agree_expect _).loose fun _ => hmore _

theorem agree_suffixes (hG : AgreeGrammar k G G') (h : Enough k n m) (t : Tree) :
    Agree k 0 (suffixes G n t) (suffixes G' m t) := by
  induction h generalizing t with
  | none => exact agree_zero
  | same => exact agree_pure t
  | @succ k n m h ih =>
    have hless := hG.mono (Nat.le_succ k)
    exact agree_suffixesRound hless h (ih hless) t

variable (hG : AgreeGrammar (k - 1) G G') (h : Enough k n m)
include hG h

theorem agree_functionRest (captures : Bool) (l : Nat) :
    Agree k 1 (functionRest G n captures l) (functionRest G' m captures l) := by
  refine agree_bind (agree_expect _) fun _ => ?_
  refine agree_bind (agree_params (h.mono (Nat.sub_le k 1))).loose fun ps => ?_
  refine agree_bind agree_returnType fun ret => agree_check fun atBrace => ?_
  have hbody := agree_bind_pure (f := fun body => FunctionDef.mk ps ret.1 ret.2 captures body l)
    hG.stmt.loose
  cases atBrace with
  | false => exact agree_bind (agree_fail _) fun _ => hbody
  | true => exact hbody

theorem agree_functionLiteral : Agree k 1 (functionLiteral G n) (functionLiteral G' m) := by
  refine agree_line fun l => agree_eat_any fun captures => ?_
  refine agree_bind (agree_expect _) fun _ => ?_
  exact (agree_functionRest (hG.mono (Nat.sub_le _ 1)) (h.mono (Nat.sub_le k 1)) captures l).loose

theorem agree_primary : Agree k 1 (primary G n) (primary G' m) := by
  have hleaf (t : Tree) : Agree (k - 1) (1 - 1) (pure t : Parser Tree) (pure t) := agree_pure t
  have hparen : Agree (k - 1) 0
      (do let inner ← G.expr; expect (delim .rparen); return .paren inner : Parser Tree)
      (do let inner ← G'.expr; expect (delim .rparen); return .paren inner) :=
    agree_bind hG.expr.loose fun inner => agree_bind_pure (agree_expect _).loose
  have harray := agree_bind_pure (f := Tree.array)
    (agree_expressions (delim .rbracket) hG.expr (h.mono (Nat.sub_le k 1)))
  have hfunction := agree_bind_pure (f := Tree.function) (agree_functionLiteral hG h)
  intro toks hlt
  simp only [primary]
  split
  case h_1 hkind | h_2 hkind | h_3 hkind | h_4 hkind | h_5 hkind =>
    exact (hleaf _).tail hlt (by simp [hkind])
  case h_6 hkind => exact hparen.tail hlt (by simp [hkind])
  case h_7 hkind => exact harray.loose.tail hlt (by simp [hkind])
  case h_8 | h_9 => exact hfunction toks hlt
  case h_10 => exact agree_fail _ toks hlt

theorem agree_operand : Agree k 1 (operand G n) (operand G' m) :=
  agree_bind (agree_primary hG h) fun t =>
    agree_suffixes hG (h.mono (Nat.sub_le k 1)) t

omit hG h

theorem agree_prefixed {p q : Parser Tree} (hp : Agree k 1 p q) :
    Agree k 1 (prefixed p) (prefixed q) := by
  intro toks
  induction toks with
  | nil => exact hp []
  | cons t r ih =>
    intro hlt
    simp only [prefixed]
    split
    · rename_i op hop
      have hleft := tokensLeft_cons (t := t) (r := r) (ne_eof_of_eq_some hop rfl)
      obtain ⟨heq, htakes⟩ := ih (by omega)
      rw [heq]
      refine ⟨rfl, fun a rest hr => ?_⟩
      obtain ⟨⟨e, r'⟩, he, hpair⟩ := map_eq_ok.1 hr
      cases hpair
      have htaken := htakes e r' (heq.trans he)
      rw [hleft]
      exact Nat.le_succ_of_le htaken
    · exact hp (t :: r) hlt

section Chain

variable {p q : Parser Tree} {g g' : Nat × Option Tree → Parser Tree}
  (hp : Agree (k + 1) 1 p q) (hmore : ∀ i, Agree k 0 (g i) (g' i))
include hp hmore

theorem agree_binaryRound (low : Nat) :
    Agree (k + 1) 1 (chainRound p g (low, none)) (chainRound q g' (low, none)) :=
  agree_bind hp fun left => hmore (low, some left)

theorem agree_chainRound (i : Nat × Option Tree) :
    Agree (k + 1) 0 (chainRound p g i) (chainRound q g' i) := by
  obtain ⟨low, none | left⟩ := i
  · exact (agree_binaryRound hp hmore low).loose
  intro toks hlt
  simp only [chainRound]
  split
  · rename_i op hop
    split
    · exact agree_pure left toks hlt
    · have hnext : Agree (k + 1 - 1) 0
          (do let right ← g (op.precedence + 1, none)
              g (low, some (.binary op left right)) : Parser Tree)
          (do let right ← g' (op.precedence + 1, none)
              g' (low, some (.binary op left right))) :=
        agree_bind (hmore _) fun right => hmore _
      exact hnext.tail hlt (ne_eof_of_eq_some hop rfl)
  · exact agree_pure left toks hlt

end Chain

/-- Both for a chain of operators and for the operators behind its first operand. -/
theorem agree_binary_and_operators {p q : Parser Tree} (hp : Agree k 1 p q) (h : Enough k n m) :
    (∀ low, Agree k 1 (binary p n low) (binary q m low)) ∧
      ∀ low left, Agree k 0 (operators p n low left) (operators q m low left) := by
  induction h with
  | none => exact ⟨fun _ => agree_zero, fun _ _ => agree_zero⟩
  | same =>
    refine ⟨fun low => ?_, fun low left => ?_⟩
    · simp only [binary]
      exact hp
    · simp only [operators]
      exact agree_pure left
  | @succ k n m _ ih =>
    obtain ⟨hbinary, hoperators⟩ := ih (hp.shorter (Nat.le_succ k))
    have hmore : ∀ i, Agree k 0 (chain p n i) (chain q m i) := by
      rintro ⟨low, none | left⟩
      · exact (hbinary low).loose
      · exact hoperators low left
    exact ⟨agree_binaryRound hp hmore, fun low left => agree_chainRound hp hmore (low, some left)⟩

include hG h

theorem agree_expression : Agree k 1 (expression G n) (expression G' m) := by
  have hbinary := (agree_binary_and_operators (agree_prefixed (agree_operand hG h)) h).1 2
  refine agree_bind hbinary fun target => agree_peek fun kind => ?_
  split
  · refine agree_bind (agree_expect _).loose fun _ => ?_
    exact agree_bind_pure hG.expr.loose
  · exact agree_pure target

/-! ## Statements -/

theorem agree_lowered : Agree k 1 (lowered G n) (lowered G' m) :=
  agree_line fun _ => agree_bind_pure (agree_expression hG h)

theorem agree_declaration : Agree k 1 (declaration G n) (declaration G' m) := by
  have hflags : Agree k 0 (fun toks => .ok (flags {} toks) : Parser DeclFlags)
      (fun toks => .ok (flags {} toks)) := by
    refine agree_self fun toks fs rest hr => ?_
    have hahead := (flags_ahead {} toks).tokensLeft_le
    rwa [Except.ok.inj hr] at hahead
  refine agree_line fun l => agree_bind_late hflags fun fs => ?_
  refine agree_bind agree_type fun ty => ?_
  refine agree_bind agree_expectIdent.loose fun name => ?_
  refine agree_bind_pure (agree_behind _ (d := 1) ?_)
  exact (agree_lowered hG h).shorter (by omega)

theorem agree_expressionStmt : Agree k 1 (expressionStmt G n) (expressionStmt G' m) :=
  agree_line fun _ => agree_bind_pure (agree_expression hG h)

theorem agree_simple : Agree k 1 (simple G n) (simple G' m) := by
  intro toks hlt
  simp only [simple]
  split
  · exact agree_declaration hG h toks hlt
  · exact agree_expressionStmt hG h toks hlt

theorem agree_condition : Agree k 1 (condition G n) (condition G' m) := by
  refine agree_bind (agree_expect _) fun _ => ?_
  refine agree_bind ((agree_lowered hG h).loose.shorter (Nat.sub_le k 1)) fun cond => ?_
  exact agree_bind_pure (agree_expect _).loose

theorem agree_ifRest (l : Nat) : Agree k 1 (ifRest G n l) (ifRest G' m l) := by
  refine agree_bind (agree_condition hG h) fun cond => ?_
  refine agree_bind hG.stmt.loose fun thenBranch => ?_
  exact agree_bind_pure (agree_behind _ (hG.stmt.shorter (by omega)))

omit hG h in
theorem agree_separator : Agree k 1 separator separator :=
  agree_check fun _ => agree_ite (agree_bind_late (agree_fail _) fun _ => agree_expect _)
    (agree_expect _)

theorem agree_forRest (l : Nat) : Agree k 1 (forRest G n l) (forRest G' m l) := by
  have hless : k - 1 ≤ k := Nat.sub_le k 1
  refine agree_bind (agree_expect _) fun _ => ?_
  refine agree_bind (agree_unlessAt _ ((agree_simple hG h).shorter hless)) fun init => ?_
  refine agree_bind agree_separator.loose fun _ => ?_
  refine agree_bind (agree_unlessAt _ ((agree_lowered hG h).shorter hless)) fun cond => ?_
  refine agree_bind agree_separator.loose fun _ => ?_
  refine agree_bind (agree_unlessAt _ ((agree_expressionStmt hG h).shorter hless)) fun step => ?_
  refine agree_bind (agree_expect _).loose fun _ => ?_
  exact agree_bind_pure hG.stmt.loose

theorem agree_returnRest (l : Nat) : Agree k 1 (returnRest G n l) (returnRest G' m l) :=
  agree_bind_late (agree_unlessAt _ (agree_lowered hG h)) fun _ => agree_bind_pure (agree_expect _)

theorem agree_functionDefinition :
    Agree k 1 (functionDefinition G n) (functionDefinition G' m) := by
  refine agree_line fun l => agree_eat_any fun captures => ?_
  refine agree_bind (agree_expect _) fun _ => ?_
  refine agree_bind agree_expectIdent.loose fun name => ?_
  refine agree_bind_pure (Agree.loose (d := 1) ?_)
  exact agree_functionRest (hG.mono (by omega)) (h.mono (by omega)) captures l

omit hG h in
theorem agree_blockRound {p q : Parser Stmt} {r r' : Parser (List Stmt)}
    (hp : Agree (k + 1) 1 p q) (hmore : Agree k 0 r r') :
    Agree (k + 1) 1 (blockRound p r) (blockRound q r') := by
  have hnext : Agree (k + 1) 1 (do let s ← p; return s :: (← r) : Parser (List Stmt))
      (do let s ← q; return s :: (← r')) :=
    agree_bind hp fun s => agree_bind_pure hmore
  refine agree_eat (agree_pure []) (agree_peek fun kind => agree_ite ?_ hnext)
  exact agree_bind_late (agree_fail _) fun _ => hnext

omit hG h in
theorem agree_blockRest {p q : Parser Stmt} (hp : Agree k 1 p q) (h : Enough k n m) :
    Agree k 1 (blockRest p n) (blockRest q m) := by
  induction h with
  | none => exact agree_zero
  | same => exact agree_fail _
  | succ _ ih => exact agree_blockRound hp (ih (hp.shorter (Nat.le_succ _))).loose

theorem agree_statement : Agree k 1 (statement G n) (statement G' m) := by
  have hblock (l : Nat) := agree_bind_pure (f := fun body => Stmt.block body l)
    (agree_blockRest hG.stmt (h.mono (Nat.sub_le k 1)))
  have hif (l : Nat) :=
    agree_ifRest (hG.mono (Nat.sub_le (k - 1) 1)) (h.mono (Nat.sub_le k 1)) l
  have hfor (l : Nat) :=
    agree_forRest (hG.mono (Nat.sub_le (k - 1) 1)) (h.mono (Nat.sub_le k 1)) l
  have hreturn (l : Nat) :=
    agree_returnRest (hG.mono (Nat.sub_le (k - 1) 1)) (h.mono (Nat.sub_le k 1)) l
  have hwhile (l : Nat) : Agree (k - 1) 1
      (do let cond ← condition G n; let body ← G.stmt; return .whileLoop cond body l : Parser Stmt)
      (do let cond ← condition G' m; let body ← G'.stmt; return .whileLoop cond body l) := by
    refine agree_bind (agree_condition (hG.mono (by omega)) (h.mono (by omega))) fun cond => ?_
    exact agree_bind_pure (hG.stmt.loose.shorter (Nat.sub_le _ 1))
  have hword (s : Stmt) : Agree (k - 1) 1 (do expect (delim .semicolon); return s : Parser Stmt)
      (do expect (delim .semicolon); return s) :=
    agree_bind_pure (agree_expect _)
  have hempty (s : Stmt) : Agree (k - 1) (1 - 1) (pure s : Parser Stmt) (pure s) := agree_pure s
  have hsimple : Agree k 1
      (do let s ← simple G n; expect (delim .semicolon); return s : Parser Stmt)
      (do let s ← simple G' m; expect (delim .semicolon); return s) :=
    agree_bind (agree_simple hG h) fun s => agree_bind_pure (agree_expect _).loose
  intro toks hlt
  simp only [statement]
  split
  case h_1 hkind => exact (hblock _).loose.tail hlt (by simp [hkind])
  case h_2 hkind => exact (hif _).loose.tail hlt (by simp [hkind])
  case h_3 hkind => exact (hwhile _).loose.tail hlt (by simp [hkind])
  case h_4 hkind => exact (hfor _).loose.tail hlt (by simp [hkind])
  case h_5 hkind | h_6 hkind => exact (hword _).loose.tail hlt (by simp [hkind])
  case h_7 hkind => exact (hreturn _).loose.tail hlt (by simp [hkind])
  case h_8 hkind => exact (hempty _).tail hlt (by simp [hkind])
  case h_9 =>
    split
    · exact agree_classDefinition h toks hlt
    · split
      · exact agree_functionDefinition hG h toks hlt
      · exact hsimple toks hlt

end Level

/-! ## Levels and programs -/

/-- Levels agree that are deep enough: each takes a token before it enters the next one. -/
theorem agree_grammar (h : Enough k n m) : AgreeGrammar (k - 1) (grammar n) (grammar m) := by
  induction h with
  | none => exact ⟨agree_zero, agree_zero⟩
  | same => exact ⟨agree_fail _, agree_fail _⟩
  | succ h ih => exact ⟨agree_expression ih h, agree_statement ih h⟩

/-- Whatever the innermost levels do. -/
theorem agree_levels (G G' : Grammar) (hn : k ≤ n) (hm : k ≤ m) :
    AgreeGrammar (k - 1) (levels G n) (levels G' m) := by
  induction k generalizing n m with
  | zero => exact ⟨agree_zero, agree_zero⟩
  | succ k ih =>
    obtain ⟨n, rfl⟩ := Nat.exists_eq_add_one.2 (Nat.zero_lt_of_lt hn)
    obtain ⟨m, rfl⟩ := Nat.exists_eq_add_one.2 (Nat.zero_lt_of_lt hm)
    have hn := Nat.le_of_succ_le_succ hn
    have hm := Nat.le_of_succ_le_succ hm
    exact ⟨agree_expression (ih hn hm) (.of_le hn hm), agree_statement (ih hn hm) (.of_le hn hm)⟩

theorem agree_statementsRound {p q : Parser Stmt} {r r' : Parser (List Stmt)}
    (hp : Agree (k + 1) 1 p q) (hmore : Agree k 0 r r') :
    Agree (k + 1) 0 (statementsRound p r) (statementsRound q r') := by
  have hnext : Agree (k + 1) 1 (do let s ← p; return s :: (← r) : Parser (List Stmt))
      (do let s ← q; return s :: (← r')) :=
    agree_bind hp fun s => agree_bind_pure hmore
  exact agree_peek fun kind => agree_ite (agree_pure []) hnext.loose

end HeapScript.Parser
