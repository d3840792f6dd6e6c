import HeapScript.Proofs.Parser.Complete.Expression

/-!
# Expressions are not taken for declarations

What the tokens of an expression look like from the front, as far as the look-ahead for
declarations and definitions goes.

* `Opening` lists how an expression can begin, `opening` says that there is no other
  way. A name at the front is followed by no other name and by no empty pair of
  brackets.
* `atDeclaration_of_opening` and its like: the look-ahead finds no declaration.
-/

namespace HeapScript.Parser

/-- The front is no name and no empty pair of brackets. -/
def Quiet (toks : List Token) : Prop :=
  isIdent (front toks).kind = false ∧
    (at? (delim .lbracket) toks = false ∨ at? (delim .rbracket) toks.tail = false)

/-- How an expression, and what follows it, can begin. -/
inductive Opening : List Token → Prop
  | ident {tok : Token} {toks : List Token} {name : String} : tok.kind = .ident name → Quiet toks →
    Opening (tok :: toks)
  | function {a b : Token} {toks : List Token} : a.kind = .symbol (kw .func) →
    b.kind = .symbol (delim .lparen) → Opening (a :: b :: toks)
  | closure {a b c : Token} {toks : List Token} : a.kind = .symbol (kw .closure) →
    b.kind = .symbol (kw .func) → c.kind = .symbol (delim .lparen) → Opening (a :: b :: c :: toks)
  | other {tok : Token} {toks : List Token} : starts tok.kind = true → typeName? tok.kind = none →
    tok.kind ≠ .symbol (kw .closure) → Opening (tok :: toks)

theorem quiet_cons {s : Symbol} {tok : Token} {toks : List Token} (h : tok.kind = .symbol s)
    (hs : s ≠ delim .lbracket) : Quiet (tok :: toks) :=
  ⟨by rw [front_cons, h]; rfl, .inl (not_at_cons h fun h => hs (TokenKind.symbol.inj h))⟩

theorem opening {g : Nat → Grammar} {t : Tree} {used rest : List Token} (ht : t.Shaped)
    (h : Spells (Literal g) t.pieces used) (hrest : Quiet rest) : Opening (used ++ rest) := by
  induction t using Tree.operandRec generalizing used rest with
  | ident name =>
    obtain ⟨tok, rfl, hkind⟩ := spells_singleton_iff.1 h
    exact .ident hkind hrest
  | function d =>
    obtain ⟨lit, u, rfl, hlit, hu⟩ := spells_function_iff.1 h
    rcases hlit.front with ⟨a, b, r, rfl, ha, hb⟩ | ⟨a, b, c, r, rfl, ha, hb, hc⟩
    · exact .function ha hb
    · exact .closure ha hb hc
  | binary op left right ih _ | assign op left right ih _ =>
    obtain ⟨u, v, rfl, hu, hv⟩ := spells_append_iff.1 h
    obtain ⟨tok, w, rfl, hkind, -⟩ := spells_token_iff.1 hv
    rw [List.append_assoc]
    exact ih (ht.part (by simp [Tree.parts])) hu (quiet_cons hkind (by rintro ⟨⟩))
  | member object name ih =>
    obtain ⟨u, v, rfl, hu, hv⟩ := spells_append_iff.1 h
    obtain ⟨tok, w, rfl, hkind, -⟩ := spells_token_iff.1 hv
    rw [List.append_assoc]
    exact ih (ht.part (by simp [Tree.parts])) hu (quiet_cons hkind (by rintro ⟨⟩))
  | call callee args ih =>
    obtain ⟨u, v, rfl, hu, hv⟩ := spells_append_iff.1 h
    obtain ⟨tok, w, rfl, hkind, -⟩ := spells_token_iff.1 hv
    rw [List.append_assoc]
    exact ih (ht.part (by simp [Tree.parts])) hu (quiet_cons hkind (by rintro ⟨⟩))
  | index object idx ih =>
    obtain ⟨u, v, rfl, hu, hv⟩ := spells_append_iff.1 h
    obtain ⟨bracket, w, close, rfl, hbracket, -, hw⟩ := spells_enclosed_iff.1 hv
    rw [List.append_assoc]
    refine ih (ht.part (by simp [Tree.parts])) hu ⟨?_, .inr ?_⟩
    · rw [List.cons_append, front_cons, hbracket]
      rfl
    · -- the brackets of an index are not empty
      rw [List.cons_append, List.tail_cons, List.append_assoc]
      exact not_at_of_test starts (starts_front (ht.part (by simp [Tree.parts])) hw _) rfl
  | unary op operand =>
    obtain ⟨tok, u, rfl, hkind, -⟩ := spells_token_iff.1 h
    refine .other ?_ ?_ ?_ <;> rw [hkind] <;> cases op <;> first | rfl | rintro ⟨⟩
  | bool b =>
    obtain ⟨tok, u, rfl, hkind, -⟩ := spells_token_iff.1 h
    refine .other ?_ ?_ ?_ <;> rw [hkind] <;> cases b <;> first | rfl | rintro ⟨⟩
  | num | str | array | paren =>
    obtain ⟨tok, u, rfl, hkind, -⟩ := spells_token_iff.1 h
    refine .other ?_ ?_ ?_ <;> rw [hkind] <;> first | rfl | rintro ⟨⟩

theorem arraySuffixes_of_quiet {t : Ty} {toks : List Token}
    (h : at? (delim .lbracket) toks = false ∨ at? (delim .rbracket) toks.tail = false) :
    arraySuffixes t toks = (t, toks) := by
  rw [arraySuffixes.eq_def]
  split
  · rename_i a b r
    rw [if_neg]
    rintro hpair
    rw [Bool.and_eq_true] at hpair
    rcases h with h | h
    · exact absurd hpair.1 (by simpa [at?] using h)
    · exact absurd hpair.2 (by simpa [at?] using h)
  · rfl

section Opening

variable {toks : List Token} (h : Opening toks)

include h

theorem starts_of_opening : starts (front toks).kind = true := by
  cases h with
  | ident hkind _ => rw [front_cons, hkind]; rfl
  | function ha _ => rw [front_cons, ha]; rfl
  | closure ha _ _ => rw [front_cons, ha]; rfl
  | other hs _ _ => exact hs

theorem atClassDefinition_of_opening : atClassDefinition toks = false := by
  rw [atClassDefinition, not_at_of_test starts (starts_of_opening h) rfl]
  rfl

theorem atFunctionDefinition_of_opening : atFunctionDefinition toks = false := by
  cases h with
  | ident hkind _ => simp [atFunctionDefinition, at?, kindAt, hkind, TokenKind.isSymbol]
  | function ha hb => simp [atFunctionDefinition, at?, kindAt, ha, hb, TokenKind.isSymbol, isIdent]
  | closure ha hb hc =>
    simp [atFunctionDefinition, at?, kindAt, ha, hb, hc, TokenKind.isSymbol, isIdent]
  | @other tok r hs hty hclosure =>
    have hfunc : tok.kind.isSymbol (kw .func) = false := by
      rw [Bool.eq_false_iff]
      intro hfunc
      rw [TokenKind.isSymbol_iff.1 hfunc] at hty
      cases hty
    have hat : at? (kw .closure) (tok :: r) = false := not_at_cons rfl hclosure
    simp [atFunctionDefinition, hat, kindAt, hfunc]

theorem atDeclaration_of_opening : atDeclaration toks = false := by
  have hflag : flag? (front toks).kind = none := by
    have hstarts := starts_of_opening h
    rw [flag?.eq_def]
    split
    case h_4 => rfl
    all_goals simp_all [starts, startsOperand, unaryOp?, Symbol.unary?]
  rw [atDeclaration, hflag]
  cases h with
  | @ident tok r name hkind hquiet =>
    simp only [front_cons, hkind, typeName?, List.tail_cons, arraySuffixes_of_quiet hquiet.2,
      hquiet.1]
    rfl
  | function ha hb =>
    simp only [front_cons, ha, typeName?, List.tail_cons]
    rw [arraySuffixes_of_quiet (.inl (not_at_cons hb (by rintro ⟨⟩))), front_cons, hb]
    rfl
  | closure ha _ _ =>
    rw [front_cons, ha]
    rfl
  | other _ hty _ =>
    rw [front_cons, hty]
    rfl

end Opening

end HeapScript.Parser
