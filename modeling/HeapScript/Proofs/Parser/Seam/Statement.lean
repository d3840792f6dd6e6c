import HeapScript.Proofs.Parser.Seam.Expression

/-!
# Statements across a seam

* `Seam.carries_statement`: a statement reads the same across a seam, where no class stands
  before a semicolon. It ends in a token of its own, so that only an `else` or a semicolon
  behind a class could be taken with it.
* `Seam.carries_grammar`: so it is at any two levels that are deep enough.
-/

namespace HeapScript.Parser

/-- A semicolon before the seam is next. -/
def AtSemicolon {α : Type} (_ : α) (v : List Token) : Prop :=
  ∃ semi r, v = semi :: r ∧ semi.kind = .symbol (delim .semicolon)

variable {α : Type} {S : Seam} {k n m : Nat}

theorem AtSemicolon.inside {a : α} {v : List Token} (h : AtSemicolon a v) : Inside a v := by
  obtain ⟨semi, r, rfl, -⟩ := h
  exact List.cons_ne_nil semi r

/-- A look-ahead that stops before the seam. -/
theorem AtSemicolon.look {look : List Token → Bool} (hlook : Settled look) {a : α}
    {u v : List Token} (h : AtSemicolon a v) (hv : v <:+ u) :
    look (u ++ S.more) = look (u ++ [S.eof]) := by
  obtain ⟨semi, r, rfl, hsemi⟩ := h
  obtain ⟨w, rfl⟩ := hv
  rw [List.append_assoc, List.append_assoc]
  exact hlook w semi _ _ hsemi

theorem expect_atSemicolon {u : Unit} {r v : List Token} (a : α)
    (h : expect (delim .semicolon) (v ++ [S.eof]) = .ok (u, r)) : AtSemicolon a v := by
  obtain ⟨tok, htoks, hkind⟩ := expect_eq_ok.1 h
  obtain ⟨v, rfl, -⟩ := S.eq_cons htoks hkind nofun
  exact ⟨tok, v, rfl, hkind⟩

theorem separator_atSemicolon {u : Unit} {r v : List Token} (a : α)
    (h : separator (v ++ [S.eof]) = .ok (u, r)) : AtSemicolon a v := by
  obtain ⟨b, r₁, hcheck, hexpect⟩ := bind_apply_eq_ok.1 h
  obtain ⟨-, rfl⟩ := check_eq_ok.1 hcheck
  cases b with
  | true => exact absurd hexpect nofun
  | false => exact expect_atSemicolon a hexpect

/-- A simple statement with its semicolon. -/
def clause (G : Grammar) (n : Nat) : Parser Stmt := do
  let s ← simple G n
  expect (delim .semicolon)
  return s

/-- A statement that begins with no word of its own. -/
def unmarked (G : Grammar) (n : Nat) : Parser Stmt := fun toks =>
  if atClassDefinition toks then classDefinition n toks
  else if atFunctionDefinition toks then functionDefinition G n toks
  else clause G n toks

namespace Seam

theorem clear_of_inside {s : Stmt} {v : List Token} (h : Inside s v) : S.Clear s v :=
  fun hnil => absurd hnil h

/-- A statement that ends as its last part does. -/
theorem Clear.part {s t : Stmt} {v : List Token} (h : S.Clear s v)
    (hpart : EndsInClass t → EndsInClass s) : S.Clear t v :=
  fun hnil hclass => h hnil (hpart hclass)

theorem carries_separator : S.Carries k 1 Anywhere separator separator := by
  refine carries_check (fun b => ?_) stopsShort_succ
  cases b with
  | true => exact carries_fail _
  | false => exact carries_expect _

section Level

variable {G G' : Grammar} (hG : S.CarriesGrammar k G G') (hn : k ≤ n) (hm : k ≤ m)
include hG

/-! ## Simple statements -/

include hn hm in
theorem carries_declaration :
    S.Carries (k + 1) 1 Inside (declaration G n) (declaration G' m) := by
  refine carries_line (fun l => ?_) stopsShort_inside
  refine carries_bind_inside (e := 1) (by decide) carries_flags (fun fs => ?_) stopsShort_succ
  refine carries_bind_inside (e := 1) (by decide) carries_type (fun ty => ?_) stopsShort_succ
  refine carries_bind_anywhere (e := 0) (by decide) carries_expectIdent fun name => ?_
  have hinit := (carries_lowered hG hn hm).shorter (Nat.sub_le (k + 1) 3)
  exact carries_bind_pure (carries_behind (Y := Inside) _ hinit (fun _ _ h => h)
    (.inl fun _ h => h rfl)) fun _ _ h => h

include hn hm in
theorem carries_expressionStmt :
    S.Carries (k + 1) 1 Inside (expressionStmt G n) (expressionStmt G' m) :=
  carries_line (fun _ => carries_bind_pure (carries_expression hG hn hm) fun _ _ h => h)
    stopsShort_inside

include hn hm in
/-- Whether it is a declaration is told before the semicolon. -/
theorem carries_simple : S.Carries (k + 1) 1 AtSemicolon (simple G n) (simple G' m) := by
  have hinside {p p' : Parser Stmt} (h : S.Carries (k + 1) 1 Inside p p') :
      S.Carries (k + 1) 1 AtSemicolon p p' :=
    h.mono (Nat.le_refl _) (Nat.le_refl 1) fun _ _ => AtSemicolon.inside
  exact carries_ite (hinside (carries_declaration hG hn hm))
    (hinside (carries_expressionStmt hG hn hm))
    (fun u v a _ _ _ hv ha hat => (ha.look settled_atDeclaration hv).trans hat)
    (fun u v a _ _ _ hv ha hat => (ha.look settled_atDeclaration hv).trans hat)

include hn hm in
theorem carries_clause : S.Carries (k + 1) 1 S.Clear (clause G n) (clause G' m) := by
  refine carries_bind (e := 1) (by decide) (carries_simple hG hn hm) (fun s => ?_) ?_
  · exact carries_bind_pure (carries_expect _) fun _ _ _ => trivial
  · rintro s v t w hr - -
    obtain ⟨_, r, hexpect, -⟩ := bind_apply_eq_ok.1 hr
    exact expect_atSemicolon s hexpect

include hn hm in
/-- A look-ahead stops at the semicolon of a clause. -/
theorem clause_look {look : List Token → Bool} (hlook : Settled look) {u r : List Token}
    {s : Stmt} (hu : u <:+ S.before) (hlt : u.length < k + 1)
    (hs : clause G n (u ++ [S.eof]) = .ok (s, r)) : look (u ++ S.more) = look (u ++ [S.eof]) := by
  obtain ⟨t, r₁, hsimple, hbehind⟩ := bind_apply_eq_ok.1 hs
  obtain ⟨w, rfl, hw, -, -⟩ := carries_simple hG hn hm u hu hlt t r₁ hsimple
  obtain ⟨_, r₂, hexpect, -⟩ := bind_apply_eq_ok.1 hbehind
  exact (expect_atSemicolon t hexpect).look hlook hw

/-! ## Statements with parts -/

theorem carries_blockRest (j : Nat) (hj : j ≤ k) : ∀ n m, j ≤ n → j ≤ m →
    S.Carries j 1 Anywhere (blockRest G.stmt n) (blockRest G'.stmt m) := by
  induction j with
  | zero => exact fun n m _ _ => carries_zero
  | succ j ih =>
    rintro (_ | n) (_ | m) hn hm <;> try omega
    have hmore := ih (by omega) n m (by omega) (by omega)
    have hstmt : S.Carries (j + 1) 1 Inside G.stmt G'.stmt :=
      hG.stmt.mono hj (Nat.le_refl 1) fun _ _ => clear_of_inside
    rw [blockRest, blockRest]
    refine carries_eat (carries_pure []) ?_ (.inl stopsShort_succ)
    refine carries_peek (fun kind => ?_) stopsShort_succ
    split
    · exact carries_fail _
    · refine carries_bind_inside (e := 1) (by decide) hstmt (fun s => ?_) stopsShort_succ
      exact carries_bind_pure hmore fun _ _ h => h

include hn hm in
theorem carries_condition : S.Carries k 1 Anywhere (condition G n) (condition G' m) := by
  refine carries_bind_anywhere (e := 1) (by decide) (carries_expect _) fun _ => ?_
  have hcond : S.Carries (k - 1) 1 Inside (lowered G n) (lowered G' m) :=
    (carries_lowered hG hn hm).shorter (by omega)
  refine carries_bind_inside (e := 1) (by decide) hcond (fun cond => ?_) stopsShort_succ
  exact carries_bind_pure (carries_expect _) fun _ _ h => h

/-- An `else` behind the seam would be taken. -/
theorem carries_elseBranch (cond : Expr) (t : Stmt) (l : Nat) :
    S.Carries k 0 S.Clear
      (do return .ifThen cond t (← behind (kw .elseThen) G.stmt) l : Parser Stmt)
      (do return .ifThen cond t (← behind (kw .elseThen) G'.stmt) l : Parser Stmt) := by
  have hbranch : S.Carries (k - 1) 1 S.Clear G.stmt G'.stmt := hG.stmt.shorter (Nat.sub_le k 1)
  have helse := carries_behind (Y := fun o v => S.Clear (.ifThen cond t o l) v) (kw .elseThen)
    hbranch (fun s v h => h.part .elseBranch) (.inr S.not_else)
  exact carries_bind_pure helse fun _ _ h => h

include hn hm in
theorem carries_ifRest (l : Nat) : S.Carries k 1 S.Clear (ifRest G n l) (ifRest G' m l) := by
  refine carries_bind_anywhere (e := 1) (by decide) (carries_condition hG hn hm) fun cond => ?_
  refine carries_bind (e := 0) (by decide) (hG.stmt.shorter (Nat.sub_le k 1))
    (fun thenBranch => (carries_elseBranch hG cond thenBranch l).shorter (by omega)) ?_
  rintro t v s w hr - hclear rfl
  obtain ⟨o, r, helse, hpure⟩ := bind_apply_eq_ok.1 hr
  cases (behind_none (S.not_at_eof _)).symm.trans helse
  obtain ⟨rfl, hw⟩ := pure_apply_eq_ok.1 hpure
  obtain rfl : w = [] := by simpa using hw.symm
  exact hclear.part .thenBranch rfl

/-! ## Loops -/

include hn hm in
theorem carries_forRest (l : Nat) : S.Carries k 1 S.Clear (forRest G n l) (forRest G' m l) := by
  have hinit := carries_unlessAt (Y := AtSemicolon) (delim .semicolon) (carries_simple hG hn hm)
    (fun _ _ h => h) fun _ h => h.inside rfl
  have hcond := carries_unlessAt (Y := Inside) (delim .semicolon) (carries_lowered hG hn hm)
    (fun _ _ h => h) fun _ h => h rfl
  have hstep := carries_unlessAt (Y := Inside) (delim .rparen) (carries_expressionStmt hG hn hm)
    (fun _ _ h => h) fun _ h => h rfl
  refine carries_bind_anywhere (e := 1) (by decide) (carries_expect _) fun _ => ?_
  refine carries_bind (e := 1) (by decide) (hinit.shorter (by omega)) (fun init => ?_) ?_
  · refine carries_bind_anywhere (e := 1) (by decide) carries_separator fun _ => ?_
    refine carries_bind_inside (e := 1) (by decide) (hcond.shorter (by omega)) (fun cond => ?_)
      stopsShort_succ
    refine carries_bind_anywhere (e := 1) (by decide) carries_separator fun _ => ?_
    refine carries_bind_inside (e := 1) (by decide) (hstep.shorter (by omega)) (fun step => ?_)
      stopsShort_succ
    refine carries_bind_anywhere (e := 1) (by decide) (carries_expect _) fun _ => ?_
    exact carries_bind_pure (hG.stmt.shorter (by omega)) fun body v h => h.part .forLoop
  · rintro init v s w hr - -
    obtain ⟨_, r, hseparator, -⟩ := bind_apply_eq_ok.1 hr
    exact separator_atSemicolon init hseparator

include hn hm in
theorem carries_returnRest (l : Nat) :
    S.Carries k 1 Anywhere (returnRest G n l) (returnRest G' m l) := by
  have hvalue := carries_unlessAt (Y := Inside) (delim .semicolon) (carries_lowered hG hn hm)
    (fun _ _ h => h) fun _ h => h rfl
  refine carries_bind_inside (e := 1) (by decide) (hvalue.shorter (Nat.le_succ k)) (fun value => ?_)
    stopsShort_succ
  exact carries_bind_pure (carries_expect _) fun _ _ h => h

/-! ## Definitions -/

include hn hm in
theorem carries_functionDefinition :
    S.Carries (k + 1) 1 Anywhere (functionDefinition G n) (functionDefinition G' m) := by
  refine carries_line (fun l => ?_) (.inl nofun)
  refine carries_eat_any (fun captures => ?_) (.inl stopsShort_succ)
  refine carries_bind_anywhere (e := 1) (by decide) (carries_expect _) fun _ => ?_
  refine carries_bind_anywhere (e := 1) (by decide) carries_expectIdent fun name => ?_
  have hrest := carries_functionRest hG hn hm captures l
  exact carries_bind_pure (hrest.shorter (by omega)) fun _ _ h => h

/-! ## Any statement -/

include hn hm in
/-- Which definition it is, if it is one, is told before the seam. Otherwise it is told before
the semicolon that it is none. -/
theorem carries_unmarked : S.Carries (k + 1) 1 S.Clear (unmarked G n) (unmarked G' m) := by
  have hclause := carries_clause hG hn hm
  refine carries_ite (carries_classDefinition hn hm)
    (carries_ite (carries_functionDefinition hG hn hm).anywhere hclause ?_ ?_) ?_ ?_
  · exact fun u v s _ _ _ _ _ hat => (S.atFunctionDefinition_carries hat).2
  · exact fun u v s hu hlt hs _ _ hat =>
      (clause_look hG hn hm settled_atFunctionDefinition hu hlt hs).trans hat
  · exact fun u v s _ _ _ _ _ hat => S.atClassDefinition_carries hat
  · intro u v s hu hlt hs _ _ hat
    by_cases hfunction : atFunctionDefinition (u ++ [S.eof]) = true
    · exact (S.atFunctionDefinition_carries hfunction).1
    · rw [if_neg hfunction] at hs
      exact (clause_look hG hn hm settled_atClassDefinition hu hlt hs).trans hat

include hn hm in
theorem carries_statement : S.Carries (k + 1) 1 S.Clear (statement G n) (statement G' m) := by
  intro u hu hlt s r hr
  cases u with
  | nil =>
    rw [List.nil_append, statement, front_cons, S.eof_kind] at hr
    exact absurd hr ((carries_unmarked hG hn hm).ne_ok hlt)
  | cons t u =>
    have hlt' : u.length < k := Nat.lt_of_succ_lt_succ hlt
    have hjump {s : Stmt} : S.Carries k 1 S.Clear (expect (delim .semicolon) >>= fun _ => pure s)
        (expect (delim .semicolon) >>= fun _ => pure s) :=
      carries_bind_pure (carries_expect _) fun _ _ _ => trivial
    simp only [List.cons_append, statement, front_cons, List.tail_cons] at hr ⊢
    split at hr
    · have hblock := carries_blockRest hG k (Nat.le_refl k) n m hn hm
      exact (carries_bind_pure hblock fun _ _ _ => trivial).cons hu hlt' hr (by decide)
    · exact (carries_ifRest hG hn hm _).cons hu hlt' hr (by decide)
    · refine Carries.cons (d := 1) ?_ hu hlt' hr (by decide)
      refine carries_bind_anywhere (e := 1) (by decide) (carries_condition hG hn hm) fun cond => ?_
      exact carries_bind_pure (hG.stmt.shorter (Nat.sub_le k 1)) fun body v h => h.part .whileLoop
    · exact (carries_forRest hG hn hm _).cons hu hlt' hr (by decide)
    · exact hjump.cons hu hlt' hr (by decide)
    · exact hjump.cons hu hlt' hr (by decide)
    · exact (carries_returnRest hG hn hm _).anywhere.cons hu hlt' hr (by decide)
    · exact (carries_pure (Stmt.nop _)).cons hu hlt' hr (by decide)
    · exact carries_unmarked hG hn hm (t :: u) hu hlt s r hr

end Level

/-! ## All levels -/

theorem not_endsInClass_of_block (n : Nat) {toks rest : List Token} {s : Stmt}
    (hat : at? (delim .lbrace) toks = true) (h : (grammar n).stmt toks = .ok (s, rest)) :
    ¬EndsInClass s := by
  cases n with
  | zero => exact absurd h fail_ne_ok
  | succ n =>
    simp only [grammar, statement, at?_iff.1 hat] at h
    obtain ⟨body, r, -, hpure⟩ := bind_apply_eq_ok.1 h
    obtain ⟨rfl, -⟩ := pure_apply_eq_ok.1 hpure
    rintro ⟨⟩

/-- Any two levels that are as deep as the tokens left before the seam are many. -/
theorem carries_grammar (S : Seam) (k : Nat) : ∀ n m, k ≤ n → k ≤ m →
    S.CarriesGrammar k (grammar n) (grammar m) := by
  induction k with
  | zero =>
    exact fun n m _ _ => ⟨carries_zero, carries_zero, fun _ _ _ => not_endsInClass_of_block n⟩
  | succ k ih =>
    rintro (_ | n) (_ | m) hn hm <;> try omega
    have hn := Nat.le_of_succ_le_succ hn
    have hm := Nat.le_of_succ_le_succ hm
    have hG := ih n m hn hm
    exact ⟨carries_expression hG hn hm, carries_statement hG hn hm,
      fun _ _ _ => not_endsInClass_of_block (n + 1)⟩

end Seam

end HeapScript.Parser
