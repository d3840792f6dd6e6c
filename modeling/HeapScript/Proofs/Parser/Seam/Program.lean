import HeapScript.Proofs.Parser.Seam.Statement

/-!
# Programs one after the other

* `statement_ne_ok`: which tokens no statement begins with.
* `Seam.statements_append`: the statements before the seam and then those behind it are
  the statements of the whole.
* `parse_append`: the tokens of two programs, one after the other, are the tokens of one
  program with the statements of both.
-/

namespace HeapScript

namespace Parser

/-! ## How programs begin -/

/-- No expression begins with the token. -/
theorem expression_ne_ok {G : Grammar} {n : Nat} {tok : Token} {r : List Token}
    (hunary : unaryOp? tok.kind = none) (hprimary : ∀ a r', primary G n (tok :: r) ≠ .ok (a, r'))
    (a : Tree) (r' : List Token) : expression G n (tok :: r) ≠ .ok (a, r') := by
  intro hr
  obtain ⟨target, r₁, htarget, -⟩ := bind_apply_eq_ok.1 hr
  refine binary_ne_ok (fun b r₂ hb => ?_) n 2 target r₁ htarget
  simp only [prefixed, hunary] at hb
  obtain ⟨t, r₃, ht, -⟩ := bind_apply_eq_ok.1 hb
  exact hprimary t r₃ ht

theorem unmarked_ne_ok {G : Grammar} {n : Nat} {tok : Token} {r : List Token}
    (hclass : atClassDefinition (tok :: r) = false)
    (hfunction : atFunctionDefinition (tok :: r) = false)
    (hdeclaration : atDeclaration (tok :: r) = false)
    (hexpression : ∀ t r', expression G n (tok :: r) ≠ .ok (t, r'))
    (s : Stmt) (rest : List Token) : unmarked G n (tok :: r) ≠ .ok (s, rest) := by
  intro h
  rw [unmarked, hclass, if_neg Bool.false_ne_true, hfunction, if_neg Bool.false_ne_true] at h
  obtain ⟨t, r₁, ht, -⟩ := bind_apply_eq_ok.1 h
  rw [simple, hdeclaration, if_neg Bool.false_ne_true] at ht
  obtain ⟨l, r₂, hl, he⟩ := bind_apply_eq_ok.1 ht
  obtain ⟨-, rfl⟩ := line_eq_ok.1 hl
  obtain ⟨e, r₃, he, -⟩ := bind_apply_eq_ok.1 he
  exact hexpression e r₃ he

/-- Neither a closing bracket nor an `else` begins a statement. -/
theorem statement_ne_ok {G : Grammar} {n : Nat} {tok : Token} {r : List Token}
    (htok : tok.kind = .symbol (delim .rbracket) ∨ tok.kind = .symbol (kw .elseThen))
    (s : Stmt) (rest : List Token) : statement G n (tok :: r) ≠ .ok (s, rest) := by
  have hunmarked : statement G n (tok :: r) = unmarked G n (tok :: r) := by
    rcases htok with htok | htok <;> simp only [statement, front_cons, htok] <;> rfl
  rw [hunmarked]
  refine unmarked_ne_ok ?_ ?_ ?_ (expression_ne_ok ?_ fun t r' ht => ?_) s rest
  · rcases htok with htok | htok <;> simp [atClassDefinition, at?, htok, TokenKind.isSymbol]
  · rcases htok with htok | htok <;>
      simp [atFunctionDefinition_eq, fronts, functionFronts, at?, htok, TokenKind.isSymbol]
  · rcases htok with htok | htok <;> simp [atDeclaration, htok, flag?, typeName?]
  · rcases htok with htok | htok <;> rw [htok] <;> rfl
  · rcases htok with htok | htok <;> simp only [primary, front_cons, htok] at ht <;>
      exact fail_ne_ok ht

/-! ## Sequences of statements -/

section Statements

variable {stmt : Parser Stmt} {j : Nat} {tok : Token} {r rest : List Token} {ss : List Stmt}

theorem statements_eof (htok : tok.kind = .eof) :
    statements stmt j [tok] = .ok ([], [tok]) := by
  cases j with
  | zero => rfl
  | succ j =>
    rw [statements, bind_peek, front_cons, htok]
    rfl

theorem statements_eq_ok (htok : tok.kind ≠ .eof) :
    statements stmt (j + 1) (tok :: r) = .ok (ss, rest) ↔ ∃ s r₁ ss', ss = s :: ss' ∧
      stmt (tok :: r) = .ok (s, r₁) ∧ statements stmt j r₁ = .ok (ss', rest) := by
  have hstep : statements stmt (j + 1) (tok :: r) =
      (do let s ← stmt; return s :: (← statements stmt j) : Parser (List Stmt)) (tok :: r) := by
    rw [statements, bind_peek, front_cons]
    split
    · rename_i heof
      exact absurd heof htok
    · rfl
  rw [hstep, bind_apply_eq_ok]
  constructor
  · rintro ⟨s, r₁, hs, hmore⟩
    obtain ⟨ss', r₂, hss, hpure⟩ := bind_apply_eq_ok.1 hmore
    obtain ⟨rfl, rfl⟩ := pure_apply_eq_ok.1 hpure
    exact ⟨s, r₁, ss', rfl, hs, hss⟩
  · rintro ⟨s, r₁, ss', rfl, hs, hss⟩
    exact ⟨s, r₁, hs, bind_apply_eq_ok.2 ⟨ss', rest, hss, rfl⟩⟩

/-- A program begins with a token that begins a statement. -/
theorem statements_not_at {s : Symbol} (hs : s = delim .rbracket ∨ s = kw .elseThen) {n : Nat}
    {toks : List Token} (h : statements (grammar n).stmt (j + 1) toks = .ok (ss, rest)) :
    at? s toks = false := by
  rw [Bool.eq_false_iff]
  intro hat
  obtain ⟨tok, htoks, hkind⟩ := eq_cons_of_front (at?_iff.1 hat) nofun
  rw [htoks] at h
  obtain ⟨t, r₁, _, -, ht, -⟩ := (statements_eq_ok (by rw [hkind]; nofun)).1 h
  cases n with
  | zero => exact fail_ne_ok ht
  | succ n =>
    refine statement_ne_ok (hs.imp ?_ ?_) t r₁ ht <;>
    · rintro rfl
      exact hkind

end Statements

/-- The statements before the seam are followed by those behind it. -/
theorem Seam.statements_append (S : Seam) {k : Nat} {stmt stmt' : Parser Stmt}
    (hstmt : S.Carries k 1 S.Clear stmt stmt') (hbefore : ∀ t ∈ S.before, t.kind ≠ .eof)
    {i : Nat} {qs : List Stmt} {rest' : List Token}
    (hmore : ∀ j, i ≤ j → statements stmt' j S.more = .ok (qs, rest')) (j : Nat) :
    ∀ u ss rest, u <:+ S.before → u.length < k → u.length < j →
      statements stmt j (u ++ [S.eof]) = .ok (ss, rest) → (∀ s ∈ ss.getLast?, S.Clear s []) →
      ∀ j', u.length + i ≤ j' → statements stmt' j' (u ++ S.more) = .ok (ss ++ qs, rest') := by
  induction j with
  | zero => exact fun u _ _ _ _ hj => absurd hj (Nat.not_lt_zero _)
  | succ j ih =>
    intro u ss rest hu hlt hj h hclear j' hj'
    cases u with
    | nil =>
      rw [List.nil_append, statements_eof S.eof_kind] at h
      cases h
      exact hmore j' (by simpa using hj')
    | cons t u =>
      have ht : t.kind ≠ .eof := hbefore t (hu.subset (by simp))
      obtain ⟨s, r, ss', rfl, hs, hss⟩ := (statements_eq_ok ht).1 h
      obtain ⟨v, rfl, hv, htakes, hcarry⟩ := hstmt (t :: u) hu hlt s r hs
      rw [List.length_cons] at hlt hj hj' htakes
      obtain ⟨j', rfl⟩ := Nat.exists_eq_add_one_of_ne_zero (show j' ≠ 0 by omega)
      have hlast : ∀ x ∈ ss'.getLast?, S.Clear x [] := by
        intro x hx
        cases ss' with
        | nil => cases hx
        | cons y ss' => exact hclear x (by rwa [List.getLast?_cons_cons])
      have hs' : S.Clear s v := by
        rintro rfl
        rw [List.nil_append, statements_eof S.eof_kind] at hss
        cases hss
        exact hclear s rfl rfl
      exact (statements_eq_ok ht).2 ⟨s, _, ss' ++ qs, rfl, hcarry hs',
        ih v ss' rest (hv.trans hu) (by omega) (by omega) hss hlast j' (by omega)⟩

end Parser

theorem parse_eq_ok {name : String} {tokens : List Token} {p : Program} :
    parse name tokens = .ok p ↔ p.sourceName = name ∧
      ∃ rest, Parser.statements (Parser.grammar (tokens.length + 1)).stmt (tokens.length + 1)
        tokens = .ok (p.statements, rest) := by
  rw [parse]
  constructor
  · intro h
    split at h
    · rename_i body rest hbody
      cases h
      exact ⟨rfl, rest, hbody⟩
    · cases h
  · rintro ⟨rfl, rest, h⟩
    rw [h]

open HeapScript.Parser in
/-- The definition of a class at the end of the first program would take the semicolon with
which the second program begins. -/
def MeetsClass (a b : List Token) (p : Program) : Prop :=
  at? (delim .semicolon) b = true ∧ (∃ s ∈ p.statements.getLast?, EndsInClass s) ∧
    ∀ t ∈ a.getLast?, t.kind ≠ .symbol (delim .semicolon)

open HeapScript.Parser in
/-- The tokens of two programs are, one after the other, those of a program with the
statements of both. -/
theorem parse_append {name nameA nameB : String} {a b : List Token} {e e' : Token}
    {p q : Program} (ha : ∀ t ∈ a, t.kind ≠ .eof) (he : e.kind = .eof)
    (hb : ∀ t ∈ b, t.kind ≠ .eof) (he' : e'.kind = .eof)
    (hp : parse nameA (a ++ [e]) = .ok p) (hq : parse nameB (b ++ [e']) = .ok q)
    (hclass : ¬MeetsClass a b p) :
    parse name (a ++ (b ++ [e'])) = .ok ⟨name, p.statements ++ q.statements⟩ := by
  obtain ⟨-, rest, hp⟩ := parse_eq_ok.1 hp
  obtain ⟨-, rest', hq⟩ := parse_eq_ok.1 hq
  refine parse_eq_ok.2 ⟨rfl, [e'], ?_⟩
  generalize hn : (a ++ (b ++ [e'])).length + 1 = n
  simp only [List.length_append, List.length_singleton] at hn hp hq
  -- the second program, at the depth of the whole
  let B : Seam := ⟨b, e', [e'], he', not_at_cons he' nofun, not_at_cons he' nofun⟩
  have hbehind (j : Nat) (hj : b.length + 1 ≤ j) :
      statements (grammar n).stmt j (b ++ [e']) = .ok (q.statements ++ [], [e']) := by
    refine B.statements_append (B.carries_grammar (b.length + 1) _ n (by omega) (by omega)).stmt hb
      (fun j _ => statements_eof he') _ b q.statements rest' (List.suffix_refl b) (by omega)
      (by omega) hq (fun s _ _ _ hat => ?_) j hj
    exact absurd hat (by simp [B, not_at_cons he'])
  -- the first program, and then the second behind it
  let A : Seam := ⟨a, e, b ++ [e'], he, statements_not_at (.inl rfl) hq,
    statements_not_at (.inr rfl) hq⟩
  have hclear : ∀ s ∈ p.statements.getLast?, A.Clear s [] := by
    intro s hs _ hends hat
    refine Classical.byContradiction fun hsemi =>
      hclass ⟨?_, ⟨s, hs, hends⟩, fun t ht hkind => hsemi ⟨t, ht, hkind⟩⟩
    cases b with
    | nil => exact absurd hat (by simp [A, not_at_cons he'])
    | cons t b => exact hat
  have hall := A.statements_append (A.carries_grammar (a.length + 1) _ n (by omega) (by omega)).stmt
    ha hbehind _ a p.statements rest (List.suffix_refl a) (by omega) (by omega) hp hclear n
    (by omega)
  rwa [List.append_nil] at hall

open HeapScript.Parser in
/-- `if (a) b; class C { }` -/
def classTokens : List Token :=
  [⟨.symbol (kw .ifThen), "if", 1⟩, ⟨.symbol (delim .lparen), "(", 1⟩, ⟨.ident "a", "a", 1⟩,
    ⟨.symbol (delim .rparen), ")", 1⟩, ⟨.ident "b", "b", 1⟩, ⟨.symbol (delim .semicolon), ";", 1⟩,
    ⟨.symbol (kw .classDef), "class", 1⟩, ⟨.ident "C", "C", 1⟩,
    ⟨.symbol (delim .lbrace), "\x7b", 1⟩, ⟨.symbol (delim .rbrace), "\x7d", 1⟩]

open HeapScript.Parser in
/-- `-a; ;` -/
def negatedTokens : List Token :=
  [⟨.symbol (.operator .sub), "-", 2⟩, ⟨.ident "a", "a", 2⟩, ⟨.symbol (delim .semicolon), ";", 2⟩,
    ⟨.symbol (delim .semicolon), ";", 2⟩]

def classStmts : List Stmt :=
  [.ifThen ⟨[.instr (.ident "a")], 1⟩ (.expr ⟨[.instr (.ident "b")], 1⟩ 1) none 1,
    .classDef ⟨"C", [], 1⟩ 1]

def negatedStmts : List Stmt :=
  [.expr ⟨[.instr (.ident "a"), .instr (.unary .neg)], 2⟩ 2, .nop 2]

theorem parse_append_class :
    parse "" (classTokens ++ (negatedTokens ++ [⟨.eof, "", 3⟩])) =
      .ok ⟨"", classStmts ++ negatedStmts⟩ :=
  parse_append (e := ⟨.eof, "", 2⟩) (p := ⟨"", classStmts⟩) (q := ⟨"", negatedStmts⟩)
    (by simp [classTokens]) rfl (by simp [negatedTokens]) rfl rfl rfl (by rintro ⟨⟨⟩, -⟩)

end HeapScript
