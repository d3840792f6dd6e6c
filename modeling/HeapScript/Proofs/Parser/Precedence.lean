import HeapScript.Proofs.Parser.Walk
import HeapScript.Proofs.Program.Shape

/-!
# Parsed expressions have the shape that precedence prescribes

* `Parsed`: whatever a parser reads is spelled by the tokens it took, and is shaped.
* `parsed_binary_and_operators` is precedence climbing. A chain that was read with a
  lower bound leaves no operator at the front that reaches the bound, so an operator
  never binds tighter than the chain to its left.
-/

namespace HeapScript.Parser

/-- The tokens are read as the function literal. -/
def ReadAs (d : FunctionDef) (lit : List Token) : Prop :=
  ∃ n rest, functionLiteral (grammar n) n (lit ++ rest) = .ok (d, rest)

theorem ReadAs.ne_nil {d : FunctionDef} {lit : List Token} (h : ReadAs d lit) : lit ≠ [] := by
  rintro rfl
  obtain ⟨n, rest, h⟩ := h
  obtain ⟨tok, toks, htoks, hsuffix, -⟩ := functionLiteral_cons h
  have hlength := hsuffix.length_le
  rw [List.nil_append] at htoks
  rw [htoks, List.length_cons] at hlength
  omega

/-- A tree of at least the given level, spelled by the tokens. -/
structure Reading (low : Nat) (t : Tree) (used : List Token) : Prop where
  spells : Spells ReadAs t.pieces used
  shaped : t.Shaped
  level : low ≤ t.level

namespace Reading

variable {low : Nat} {t : Tree} {used : List Token}

theorem length_pos (h : Reading low t used) : 0 < used.length :=
  List.length_pos_iff.2 (h.spells.ne_nil (fun _ _ => ReadAs.ne_nil) t.pieces_ne_nil)

theorem mono {low' : Nat} (h : Reading low t used) (hlow : low' ≤ low) : Reading low' t used :=
  ⟨h.spells, h.shaped, Nat.le_trans hlow h.level⟩

end Reading

/-- Of fewer tokens than the bound, the parser reads trees of at least the given level. -/
def Parsed (low bound : Nat) (p : Parser Tree) : Prop :=
  ∀ toks t rest, toks.length < bound → p toks = .ok (t, rest) →
    ∃ used, toks = used ++ rest ∧ Reading low t used

/-! ## Operands -/

section Level

variable {n : Nat} (hexpr : Parsed 0 n (grammar n).expr)

include hexpr

theorem reading_expressionsRest (close : Symbol) (k : Nat) {toks rest : List Token}
    {ts : List Tree} (hn : toks.length < n)
    (h : expressionsRest (grammar n).expr close k toks = .ok (ts, rest)) :
    ts ≠ [] ∧ ∃ used tok, toks = used ++ tok :: rest ∧ tok.kind = .symbol close ∧
      Spells ReadAs (Tree.piecesAll ts) used ∧ ∀ t ∈ ts, t.Shaped := by
  induction k generalizing toks ts with
  | zero => exact absurd h fail_ne_ok
  | succ k ih =>
    obtain ⟨t, r, ht, h₁⟩ := bind_apply_eq_ok.1 h
    obtain ⟨closed, r₁, hc, h₂⟩ := bind_apply_eq_ok.1 h₁
    obtain ⟨used, rfl, hread⟩ := hexpr toks t r hn ht
    rcases eat_eq_ok.1 hc with ⟨rfl, tok, rfl, hkind⟩ | ⟨rfl, -, rfl⟩
    · obtain ⟨rfl, rfl⟩ := pure_apply_eq_ok.1 h₂
      refine ⟨List.cons_ne_nil _ _, used, tok, rfl, hkind, ?_, by simpa using hread.shaped⟩
      rw [Tree.piecesAll, Tree.piecesMore, List.append_nil]
      exact hread.spells
    · obtain ⟨_, r₂, hcomma, h₃⟩ := bind_apply_eq_ok.1 h₂
      obtain ⟨ts', r₃, hts, h₄⟩ := bind_apply_eq_ok.1 h₃
      obtain ⟨comma, rfl, hkind⟩ := expect_eq_ok.1 hcomma
      obtain ⟨rfl, rfl⟩ := pure_apply_eq_ok.1 h₄
      simp only [List.length_append, List.length_cons] at hn
      obtain ⟨hne, used', tok, rfl, hclose, hspells, hshaped⟩ := ih (by omega) hts
      refine ⟨List.cons_ne_nil _ _, used ++ comma :: used', tok, by simp, hclose, ?_, ?_⟩
      · rw [Tree.piecesAll, Tree.piecesMore_of_ne_nil hne]
        exact hread.spells.append (.cons hkind hspells)
      · simpa using ⟨hread.shaped, hshaped⟩

theorem reading_expressions (close : Symbol) (k : Nat) {toks rest : List Token}
    {ts : List Tree} (hn : toks.length < n)
    (h : expressions (grammar n).expr close k toks = .ok (ts, rest)) :
    ∃ used tok, toks = used ++ tok :: rest ∧ tok.kind = .symbol close ∧
      Spells ReadAs (Tree.piecesAll ts) used ∧ ∀ t ∈ ts, t.Shaped := by
  obtain ⟨closed, r, hc, hmore⟩ := bind_apply_eq_ok.1 h
  rcases eat_eq_ok.1 hc with ⟨rfl, tok, rfl, hkind⟩ | ⟨rfl, -, rfl⟩
  · obtain ⟨rfl, rfl⟩ := pure_apply_eq_ok.1 hmore
    exact ⟨[], tok, rfl, hkind, .nil, by simp⟩
  · exact (reading_expressionsRest hexpr close k hn hmore).2

theorem parsed_primary : Parsed 13 (n + 1) (primary (grammar n) n) := by
  -- a token that is an operand by itself
  have hleaf {t : Tree} {k : TokenKind} {toks : List Token} (ht : t.pieces = [.token k])
      (hparts : t.parts = []) (hfits : t.Fits) (hlevel : t.level = 13)
      (hk : (front toks).kind = k) (hne : k ≠ .eof) :
      ∃ used, toks = used ++ toks.tail ∧ Reading 13 t used := by
    obtain ⟨tok, htoks, hkind⟩ := eq_cons_of_front hk hne
    refine ⟨[tok], htoks, ?_, Tree.shaped_iff.2 ⟨hfits, by simp [hparts]⟩, by omega⟩
    rw [ht]
    exact .cons hkind .nil
  have hfunction {toks rest : List Token} {t : Tree}
      (h : (do return .function (← functionLiteral (grammar n) n) : Parser Tree) toks =
        .ok (t, rest)) : ∃ used, toks = used ++ rest ∧ Reading 13 t used := by
    obtain ⟨d, r, hd, hrest⟩ := bind_apply_eq_ok.1 h
    obtain ⟨rfl, rfl⟩ := pure_apply_eq_ok.1 hrest
    obtain ⟨used, rfl⟩ := functionLiteral_suffix hd
    refine ⟨used, rfl, ?_, Tree.shaped_iff.2 ⟨trivial, by simp [Tree.parts]⟩, Nat.le_refl 13⟩
    have hspells : Spells ReadAs [.function d] (used ++ []) := .function ⟨n, r, hd⟩ .nil
    rwa [List.append_nil] at hspells
  intro toks t rest hn h
  rw [primary.eq_def] at h
  split at h
  case h_1 hk | h_2 hk | h_3 hk | h_4 hk | h_5 hk =>
    cases h
    exact hleaf rfl rfl trivial rfl hk (by rintro ⟨⟩)
  case h_6 hk =>
    obtain ⟨tok, htoks, hkind⟩ := eq_cons_of_front hk (by rintro ⟨⟩)
    generalize toks.tail = r at htoks h
    subst htoks
    obtain ⟨inner, r₁, hi, h₁⟩ := bind_apply_eq_ok.1 h
    obtain ⟨_, r₂, hclose, h₂⟩ := bind_apply_eq_ok.1 h₁
    obtain ⟨rfl, rfl⟩ := pure_apply_eq_ok.1 h₂
    obtain ⟨close, rfl, hkind'⟩ := expect_eq_ok.1 hclose
    obtain ⟨used, rfl, hread⟩ := hexpr r inner _ (Nat.lt_of_succ_lt_succ hn) hi
    refine ⟨tok :: (used ++ [close]), by simp, ?_, ?_, Nat.le_refl 13⟩
    · exact .cons hkind (hread.spells.append (.cons hkind' .nil))
    · exact Tree.shaped_iff.2 ⟨trivial, by simpa [Tree.parts] using hread.shaped⟩
  case h_7 hk =>
    obtain ⟨tok, htoks, hkind⟩ := eq_cons_of_front hk (by rintro ⟨⟩)
    generalize toks.tail = r at htoks h
    subst htoks
    obtain ⟨ts, r₁, hts, h₁⟩ := bind_apply_eq_ok.1 h
    obtain ⟨rfl, rfl⟩ := pure_apply_eq_ok.1 h₁
    obtain ⟨used, close, rfl, hkind', hspells, hshaped⟩ :=
      reading_expressions hexpr _ n (Nat.lt_of_succ_lt_succ hn) hts
    refine ⟨tok :: (used ++ [close]), by simp, ?_, ?_, Nat.le_refl 13⟩
    · exact .cons hkind (hspells.append (.cons hkind' .nil))
    · exact Tree.shaped_iff.2 ⟨trivial, hshaped⟩
  case h_8 | h_9 => exact hfunction h
  case h_10 => cases h

/-- Member accesses, calls and indexings behind an operand that was read. -/
theorem reading_suffixes (k : Nat) {t t' : Tree} {before toks rest : List Token}
    (ht : Reading 13 t before) (hn : toks.length < n)
    (h : suffixes (grammar n) k t toks = .ok (t', rest)) :
    ∃ used, toks = used ++ rest ∧ Reading 13 t' (before ++ used) := by
  induction k generalizing t before toks with
  | zero =>
    obtain ⟨rfl, rfl⟩ := pure_apply_eq_ok.1 h
    exact ⟨[], rfl, by rwa [List.append_nil]⟩
  | succ k ih =>
    -- what was read so far, and the next suffix, make the operand of the rest
    have hnext (used : List Token) {u : Tree} {r : List Token}
        (hu : Reading 13 u (before ++ used))
        (hr : suffixes (grammar n) k u r = .ok (t', rest)) (htoks : toks = used ++ r) :
        ∃ used, toks = used ++ rest ∧ Reading 13 t' (before ++ used) := by
      rw [htoks, List.length_append] at hn
      obtain ⟨used', hr', hread⟩ := ih hu (by omega) hr
      refine ⟨used ++ used', by rw [htoks, hr', List.append_assoc], ?_⟩
      rwa [← List.append_assoc]
    obtain ⟨atDot, r₁, hdot, h₁⟩ := bind_apply_eq_ok.1 h
    rcases eat_eq_ok.1 hdot with ⟨rfl, dot, rfl, hkind⟩ | ⟨rfl, -, rfl⟩
    · obtain ⟨name, r₂, hname, h₂⟩ := bind_apply_eq_ok.1 h₁
      obtain ⟨tok, rfl, hkind'⟩ := expectIdent_eq_ok.1 hname
      refine hnext [dot, tok] (u := .member t name) ⟨?_, ?_, Nat.le_refl 13⟩ h₂ rfl
      · exact ht.spells.append (.cons hkind (.cons hkind' .nil))
      · exact Tree.shaped_iff.2 ⟨ht.level, by simpa [Tree.parts] using ht.shaped⟩
    obtain ⟨atParen, r₂, hparen, h₂⟩ := bind_apply_eq_ok.1 h₁
    rcases eat_eq_ok.1 hparen with ⟨rfl, paren, rfl, hkind⟩ | ⟨rfl, -, rfl⟩
    · obtain ⟨args, r₃, hargs, h₃⟩ := bind_apply_eq_ok.1 h₂
      obtain ⟨used, close, rfl, hkind', hspells, hshaped⟩ :=
        reading_expressions hexpr _ k (Nat.lt_of_succ_lt hn) hargs
      refine hnext (paren :: (used ++ [close])) (u := .call t args)
        ⟨?_, ?_, Nat.le_refl 13⟩ h₃ (by simp)
      · exact ht.spells.append (.cons hkind (hspells.append (.cons hkind' .nil)))
      · exact Tree.shaped_iff.2 ⟨ht.level, by simpa [Tree.parts] using ⟨ht.shaped, hshaped⟩⟩
    obtain ⟨atBracket, r₃, hbracket, h₃⟩ := bind_apply_eq_ok.1 h₂
    rcases eat_eq_ok.1 hbracket with ⟨rfl, bracket, rfl, hkind⟩ | ⟨rfl, -, rfl⟩
    · obtain ⟨idx, r₄, hidx, h₄⟩ := bind_apply_eq_ok.1 h₃
      obtain ⟨_, r₅, hclose, h₅⟩ := bind_apply_eq_ok.1 h₄
      obtain ⟨close, rfl, hkind'⟩ := expect_eq_ok.1 hclose
      obtain ⟨used, rfl, hread⟩ := hexpr _ idx _ (Nat.lt_of_succ_lt hn) hidx
      refine hnext (bracket :: (used ++ [close])) (u := .index t idx)
        ⟨?_, ?_, Nat.le_refl 13⟩ h₅ (by simp)
      · exact ht.spells.append (.cons hkind (hread.spells.append (.cons hkind' .nil)))
      · exact Tree.shaped_iff.2 ⟨ht.level, by simpa [Tree.parts] using ⟨ht.shaped, hread.shaped⟩⟩
    · obtain ⟨rfl, rfl⟩ := pure_apply_eq_ok.1 h₃
      exact ⟨[], rfl, by rwa [List.append_nil]⟩

theorem parsed_operand : Parsed 13 (n + 1) (operand (grammar n) n) := by
  intro toks t rest hn h
  obtain ⟨first, r, hfirst, hmore⟩ := bind_apply_eq_ok.1 h
  obtain ⟨before, rfl, hread⟩ := parsed_primary hexpr toks first r hn hfirst
  have hpos := hread.length_pos
  rw [List.length_append] at hn
  obtain ⟨used, rfl, hread'⟩ := reading_suffixes hexpr n hread (by omega) hmore
  exact ⟨before ++ used, (List.append_assoc ..).symm, hread'⟩

omit hexpr

theorem unaryOp?_eq_some {k : TokenKind} {op : UnaryOp} (h : unaryOp? k = some op) :
    k = .symbol op.symbol := by
  rw [unaryOp?.eq_def] at h
  split at h
  · rename_i s
    rw [Symbol.unary?.eq_def] at h
    split at h <;> cases h <;> rfl
  · cases h

theorem parsed_prefixed {bound : Nat} {operand : Parser Tree} (ho : Parsed 13 bound operand) :
    Parsed 12 bound (prefixed operand) := by
  intro toks
  induction toks with
  | nil =>
    intro t rest hn h
    obtain ⟨used, heq, hread⟩ := ho [] t rest hn h
    exact ⟨used, heq, hread.mono (by decide)⟩
  | cons tok r ih =>
    intro t rest hn h
    rw [prefixed] at h
    split at h
    · rename_i op hop
      obtain ⟨⟨e, rest'⟩, he, heq⟩ := map_eq_ok.1 h
      cases heq
      obtain ⟨used, rfl, hread⟩ := ih e rest (Nat.lt_of_succ_lt hn) he
      refine ⟨tok :: used, rfl, .cons (unaryOp?_eq_some hop) hread.spells, ?_, Nat.le_refl 12⟩
      exact Tree.shaped_iff.2 ⟨hread.level, by simpa [Tree.parts] using hread.shaped⟩
    · obtain ⟨used, heq, hread⟩ := ho _ t rest hn h
      exact ⟨used, heq, hread.mono (by decide)⟩

/-! ## Chains of operators -/

theorem binaryOp?_eq_some {k : TokenKind} {op : BinaryOp} :
    binaryOp? k = some op ↔ k = .symbol (.operator op) := by
  rw [binaryOp?.eq_def]
  split <;> simp_all

/-- The operator at the front, if there is one, binds looser than the bound. -/
def Below (low : Nat) (toks : List Token) : Prop :=
  ∀ op, binaryOp? (front toks).kind = some op → op.precedence < low

/-- Precedence climbing, both for a chain of operators and for the operators behind its
first operand. The operators behind a chain bind looser than its bound. In the second
part, an operator at the front binds no tighter than the operand before it. -/
theorem parsed_binary_and_operators {bound : Nat} {unary : Parser Tree}
    (hu : Parsed 12 bound unary) (k : Nat) :
    (∀ low toks t rest, low ≤ 12 → toks.length < bound → toks.length ≤ k →
      binary unary k low toks = .ok (t, rest) →
      ∃ used, toks = used ++ rest ∧ Reading low t used ∧ Below low rest) ∧
    ∀ low left before toks t rest, low ≤ 12 → toks.length < bound → toks.length ≤ k →
      Reading low left before → Below (left.level + 1) toks →
      operators unary k low left toks = .ok (t, rest) →
      ∃ used, toks = used ++ rest ∧ Reading low t (before ++ used) ∧ Below low rest := by
  induction k with
  | zero =>
    refine ⟨fun low toks t rest hlow hb hk h => ?_,
      fun low left before toks t rest hlow hb hk hl _ h => ?_⟩
    · rw [binary] at h
      obtain ⟨used, rfl, hread⟩ := hu toks t rest hb h
      have hpos := hread.length_pos
      rw [List.length_append] at hk
      omega
    · rw [operators] at h
      obtain ⟨rfl, rfl⟩ := pure_apply_eq_ok.1 h
      have hnil : toks = [] := List.length_eq_zero_iff.1 (by omega)
      subst hnil
      exact ⟨[], rfl, by rwa [List.append_nil], by rintro _ ⟨⟩⟩
  | succ k ih =>
    refine ⟨fun low toks t rest hlow hb hk h => ?_,
      fun low left before toks t rest hlow hb hk hl hfront h => ?_⟩
    · rw [binary] at h
      obtain ⟨left, r, hleft, hmore⟩ := bind_apply_eq_ok.1 h
      obtain ⟨before, rfl, hread⟩ := hu toks left r hb hleft
      have hpos := hread.length_pos
      rw [List.length_append] at hb hk
      have hfront : Below (left.level + 1) r := fun op _ => by
        have := op.precedence_le
        have := hread.level
        omega
      obtain ⟨used, rfl, hread', hbelow⟩ :=
        ih.2 low left before r t rest hlow (by omega) (by omega) (hread.mono hlow) hfront hmore
      exact ⟨before ++ used, (List.append_assoc ..).symm, hread', hbelow⟩
    · simp only [operators] at h
      split at h
      · rename_i op hop
        split at h
        · rename_i hlt
          cases h
          refine ⟨[], rfl, by rwa [List.append_nil], fun op' hop' => ?_⟩
          rw [hop] at hop'
          cases hop'
          exact hlt
        · rename_i hge
          obtain ⟨tok, htoks, hkind⟩ := eq_cons_of_front (binaryOp?_eq_some.1 hop) (by rintro ⟨⟩)
          have hleft := hfront op hop
          generalize toks.tail = r at htoks h
          subst htoks
          rw [List.length_cons] at hb hk
          obtain ⟨right, r₁, hright, hmore⟩ := bind_apply_eq_ok.1 h
          have hprec := op.precedence_le
          obtain ⟨used, rfl, hread, hbelow⟩ :=
            ih.1 (op.precedence + 1) r right r₁ (by omega) (by omega) (by omega) hright
          rw [List.length_append] at hb hk
          -- the operator joins what stands on both sides of it
          have hjoin : Reading low (.binary op left right) (before ++ tok :: used) := by
            refine ⟨hl.spells.append (.cons hkind hread.spells), ?_, Nat.le_of_not_lt hge⟩
            refine Tree.shaped_iff.2 ⟨⟨Nat.le_of_lt_succ hleft, hread.level⟩, ?_⟩
            simpa [Tree.parts] using ⟨hl.shaped, hread.shaped⟩
          obtain ⟨used', rfl, hread', hbelow'⟩ :=
            ih.2 low _ _ r₁ t rest hlow (by omega) (by omega) hjoin hbelow hmore
          exact ⟨tok :: (used ++ used'), by simp, by simpa using hread', hbelow'⟩
      · rename_i hop
        cases h
        refine ⟨[], rfl, by rwa [List.append_nil], fun op' hop' => ?_⟩
        rw [hop] at hop'
        cases hop'

theorem assignOp?_eq_some {k : TokenKind} {op : AssignOp} :
    assignOp? k = some op ↔ k = .symbol (.assign op) := by
  rw [assignOp?.eq_def]
  split <;> simp_all

include hexpr in
theorem parsed_expression : Parsed 0 (n + 1) (expression (grammar n) n) := by
  intro toks t rest hn h
  obtain ⟨target, r, htarget, h₁⟩ := bind_apply_eq_ok.1 h
  obtain ⟨kind, r₁, hpeek, h₂⟩ := bind_apply_eq_ok.1 h₁
  obtain ⟨rfl, rfl⟩ := peek_eq_ok.1 hpeek
  obtain ⟨before, rfl, hread, -⟩ :=
    (parsed_binary_and_operators (parsed_prefixed (parsed_operand hexpr)) n).1 2 toks target r₁
      (by decide) hn (Nat.le_of_lt_succ hn) htarget
  cases hop : assignOp? (front r₁).kind with
  | some op =>
    simp only [hop] at h₂
    obtain ⟨_, r₂, hassign, h₃⟩ := bind_apply_eq_ok.1 h₂
    obtain ⟨value, r₃, hvalue, h₄⟩ := bind_apply_eq_ok.1 h₃
    obtain ⟨tok, rfl, hkind⟩ := expect_eq_ok.1 hassign
    obtain ⟨rfl, rfl⟩ := pure_apply_eq_ok.1 h₄
    rw [List.length_append, List.length_cons] at hn
    obtain ⟨used, rfl, hread'⟩ := hexpr r₂ value r₃ (by omega) hvalue
    refine ⟨before ++ tok :: used, by simp, ?_, ?_, Nat.le_refl 0⟩
    · exact hread.spells.append (.cons hkind hread'.spells)
    · refine Tree.shaped_iff.2 ⟨Nat.lt_of_lt_of_le (by decide) hread.level, ?_⟩
      simpa [Tree.parts] using ⟨hread.shaped, hread'.shaped⟩
  | none =>
    simp only [hop] at h₂
    obtain ⟨rfl, rfl⟩ := pure_apply_eq_ok.1 h₂
    exact ⟨before, rfl, hread.mono (Nat.zero_le 2)⟩

end Level

/-- At every nesting level that the tokens cannot use up. -/
theorem parsed_grammar : ∀ n, Parsed 0 n (grammar n).expr
  | 0 => fun _ _ _ _ h => absurd h fail_ne_ok
  | n + 1 => parsed_expression (parsed_grammar n)

end HeapScript.Parser
