import HeapScript.Proofs.Parser.Seam.Declaration

/-!
# Expressions across a seam

* `Seam.CarriesGrammar`: the parsers of a nesting level are carried. Only a statement that
  ends in a class may come to the seam in a way that matters.
* `Seam.carries_expression`: so is an expression of the next level, if tokens are left
  behind it. What stands behind an expression decides where it ends.
-/

namespace HeapScript.Parser

/-- The parsers of one level are carried. A block does not end in a class. -/
structure Seam.CarriesGrammar (S : Seam) (k : Nat) (G G' : Grammar) : Prop where
  expr : S.Carries k 1 Inside G.expr G'.expr
  stmt : S.Carries k 1 S.Clear G.stmt G'.stmt
  block : ∀ toks s rest, at? (delim .lbrace) toks = true → G.stmt toks = .ok (s, rest) →
    ¬EndsInClass s

/-- What is made of a block, which must be at the front. -/
def Grammar.ofBlock {α : Type} (G : Grammar) (f : Stmt → α) (fault : TokenKind → ParseFault) :
    Parser α := do
  if !(← check (delim .lbrace)) then fail fault
  return f (← G.stmt)

/-- A chain of operators begins with an operand. -/
theorem binary_ne_ok {unary : Parser Tree} {toks : List Token}
    (hu : ∀ a r, unary toks ≠ .ok (a, r)) (n low : Nat) (a : Tree) (r : List Token) :
    binary unary n low toks ≠ .ok (a, r) := by
  intro hr
  cases n with
  | zero => exact hu a r hr
  | succ n =>
    obtain ⟨left, r₁, hleft, -⟩ := bind_apply_eq_ok.1 hr
    exact hu left r₁ hleft

namespace Seam

variable {S : Seam} {k n m : Nat}

/-! ## Lists of expressions -/

theorem carries_expressionsRest {expr expr' : Parser Tree} (close : Symbol) (k : Nat)
    (he : S.Carries k 1 Inside expr expr') : ∀ n m, k ≤ n → k ≤ m →
    S.Carries k 1 Anywhere (expressionsRest expr close n) (expressionsRest expr' close m) := by
  induction k with
  | zero => exact fun n m _ _ => carries_zero
  | succ k ih =>
    rintro (_ | n) (_ | m) hn hm <;> try omega
    rw [expressionsRest, expressionsRest]
    refine carries_bind_inside (e := 1) (by decide) he (fun t => ?_) stopsShort_succ
    refine carries_eat (carries_pure [t]) ?_ (.inl stopsShort_succ)
    refine carries_bind_anywhere (e := 1) (by decide) (carries_expect _) fun _ => ?_
    have hmore := ih (he.shorter (Nat.le_succ k)) n m (by omega) (by omega)
    exact carries_bind_pure (hmore.shorter (by omega)) fun _ _ h => h

theorem carries_expressions {expr expr' : Parser Tree} (close : Symbol)
    (he : S.Carries k 1 Inside expr expr') (hn : k ≤ n) (hm : k ≤ m) :
    S.Carries k 1 Anywhere (expressions expr close n) (expressions expr' close m) :=
  carries_eat (carries_pure []) (carries_expressionsRest close k he n m hn hm)
    (.inl stopsShort_succ)

/-! ## Functions -/

section Level

variable {G G' : Grammar} (hG : S.CarriesGrammar k G G') (hn : k ≤ n) (hm : k ≤ m)
include hG

/-- The body of a function is a block and so takes its last token. -/
theorem carries_ofBlock {α : Type} (f : Stmt → α) (fault : TokenKind → ParseFault) :
    S.Carries k 1 Anywhere (G.ofBlock f fault) (G'.ofBlock f fault) := by
  intro u hu hlt a r hr
  obtain ⟨b, r₁, hcheck, hbehind⟩ := bind_apply_eq_ok.1 hr
  obtain ⟨rfl, rfl⟩ := check_eq_ok.1 hcheck
  cases hat : at? (delim .lbrace) (u ++ [S.eof]) with
  | false =>
    rw [hat] at hbehind
    exact absurd hbehind nofun
  | true =>
    rw [hat] at hbehind
    obtain ⟨s, r₂, hs, hpure⟩ := bind_apply_eq_ok.1 hbehind
    obtain ⟨rfl, rfl⟩ := pure_apply_eq_ok.1 hpure
    obtain ⟨v, rfl, hv, htakes, hcarry⟩ := hG.stmt u hu hlt s r₂ hs
    have hat' : at? (delim .lbrace) (u ++ S.more) = true := by
      cases u with
      | nil => exact absurd hat (by simp [S.not_at_eof])
      | cons t u => exact hat
    have hclear : S.Clear s v := fun _ hclass => absurd hclass (hG.block _ s _ hat hs)
    refine ⟨v, rfl, hv, htakes, fun _ => ?_⟩
    rw [Grammar.ofBlock, bind_ok (check_eq_ok.2 ⟨hat'.symm, rfl⟩)]
    exact bind_ok (hcarry hclear)

include hn hm in
theorem carries_functionRest (captures : Bool) (l : Nat) :
    S.Carries k 1 Anywhere (functionRest G n captures l) (functionRest G' m captures l) := by
  refine carries_bind_anywhere (e := 1) (by decide) (carries_expect _) fun _ => ?_
  have hparams : S.Carries (k - 1) 1 Anywhere (params n) (params m) :=
    carries_params (by omega) (by omega)
  refine carries_bind_anywhere (e := 1) (by decide) hparams fun ps => ?_
  refine carries_bind_inside (e := 1) (by decide) carries_returnType (fun ret => ?_) stopsShort_succ
  exact (carries_ofBlock hG _ _).shorter (by omega)

include hn hm in
theorem carries_functionLiteral :
    S.Carries (k + 1) 1 Anywhere (functionLiteral G n) (functionLiteral G' m) := by
  refine carries_line (fun l => ?_) (.inl nofun)
  refine carries_eat_any (fun captures => ?_) (.inl stopsShort_succ)
  refine carries_bind_anywhere (e := 0) (by decide) (carries_expect _) fun _ => ?_
  exact (carries_functionRest hG hn hm captures l).loose

/-! ## Operands -/

include hn hm in
theorem carries_primary : S.Carries (k + 1) 1 Anywhere (primary G n) (primary G' m) := by
  have hliteral : S.Carries (k + 1) 1 Anywhere
      (do return .function (← functionLiteral G n) : Parser Tree)
      (do return .function (← functionLiteral G' m)) :=
    carries_bind_pure (carries_functionLiteral hG hn hm) fun _ _ h => h
  intro u hu hlt a r hr
  cases u with
  | nil =>
    rw [List.nil_append, primary, front_cons, S.eof_kind] at hr
    exact absurd hr fail_ne_ok
  | cons t u =>
    have hlt' : u.length < k := Nat.lt_of_succ_lt_succ hlt
    simp only [List.cons_append, primary, front_cons, List.tail_cons] at hr ⊢
    split at hr <;> rename_i hkind
    · exact (carries_pure (Tree.num _)).cons hu hlt' hr (by decide)
    · exact (carries_pure (Tree.str _)).cons hu hlt' hr (by decide)
    · exact (carries_pure (Tree.ident _)).cons hu hlt' hr (by decide)
    · exact (carries_pure (Tree.bool true)).cons hu hlt' hr (by decide)
    · exact (carries_pure (Tree.bool false)).cons hu hlt' hr (by decide)
    · refine Carries.cons (d := 1) ?_ hu hlt' hr (by decide)
      refine carries_bind_inside (e := 1) (by decide) hG.expr (fun inner => ?_) stopsShort_succ
      exact carries_bind_pure (carries_expect _) fun _ _ h => h
    · refine Carries.cons (d := 1) ?_ hu hlt' hr (by decide)
      exact carries_bind_pure (carries_expressions _ hG.expr hn hm) fun _ _ h => h
    · exact hliteral (t :: u) hu hlt a r hr
    · exact hliteral (t :: u) hu hlt a r hr
    · exact absurd hr fail_ne_ok

/-- What stands behind an operand is not taken if it is none of three symbols. -/
theorem carries_suffixes (j : Nat) (hj : j ≤ k) : ∀ n m t, j ≤ n → j ≤ m →
    S.Carries j 0 Inside (suffixes G n t) (suffixes G' m t) := by
  induction j with
  | zero => exact fun n m _ _ _ => carries_zero
  | succ j ih =>
    rintro (_ | n) (_ | m) t hn hm <;> try omega
    have hmore (t : Tree) : S.Carries j 0 Inside (suffixes G n t) (suffixes G' m t) :=
      ih (by omega) n m t (by omega) (by omega)
    have hexpr : S.Carries j 1 Inside G.expr G'.expr := hG.expr.shorter (by omega)
    rw [suffixes, suffixes]
    refine carries_eat ?_ ?_ (.inl stopsShort_inside)
    · exact carries_bind_anywhere (e := 0) (by decide) carries_expectIdent fun name =>
        (hmore _).shorter (Nat.sub_le j 1)
    refine carries_eat ?_ ?_ (.inl stopsShort_inside)
    · refine carries_bind_anywhere (e := 0) (by decide)
        (carries_expressions _ hexpr (by omega) (by omega)) fun args =>
          (hmore _).shorter (Nat.sub_le j 1)
    refine carries_eat ?_ (carries_pure t) (.inl stopsShort_inside)
    refine carries_bind_inside (e := 1) (by decide) hexpr (fun idx => ?_) stopsShort_succ
    exact carries_bind_anywhere (e := 0) (by decide) (carries_expect _) fun _ =>
      (hmore _).shorter (by omega)

include hn hm in
theorem carries_operand : S.Carries (k + 1) 1 Inside (operand G n) (operand G' m) :=
  carries_bind_anywhere (e := 0) (by decide) (carries_primary hG hn hm) fun t =>
    carries_suffixes hG k (Nat.le_refl k) n m t hn hm

end Level

/-! ## Operators -/

theorem carries_prefixed {p p' : Parser Tree} (hp : S.Carries k 1 Inside p p') :
    S.Carries k 1 Inside (prefixed p) (prefixed p') := by
  intro u
  induction u with
  | nil =>
    intro hu hlt a r hr
    have heof : prefixed p [S.eof] = p [S.eof] := by
      rw [prefixed, S.eof_kind]
      rfl
    exact absurd (heof.symm.trans hr) (hp.ne_ok hlt)
  | cons t u ih =>
    intro hu hlt a r hr
    simp only [List.cons_append, prefixed] at hr ⊢
    split at hr
    · obtain ⟨⟨e, r'⟩, he, heq⟩ := map_eq_ok.1 hr
      cases heq
      obtain ⟨v, rfl, hv, htakes, hcarry⟩ :=
        ih ((List.suffix_cons t u).trans hu) (Nat.lt_of_succ_lt hlt) e _ he
      refine ⟨v, rfl, hv.trans (List.suffix_cons t u), Nat.le_succ_of_le htakes, fun h => ?_⟩
      rw [hcarry h]
      rfl
    · exact hp (t :: u) hu hlt a r hr

section Operators

variable {unary unary' : Parser Tree}

theorem operators_eof (n low : Nat) (left : Tree) :
    operators unary n low left [S.eof] = .ok (left, [S.eof]) := by
  cases n with
  | zero => rfl
  | succ n => simp only [operators, front_cons, S.eof_kind, binaryOp?]

theorem carries_operators {low : Nat} {left : Tree}
    (hbinary : ∀ low, S.Carries k 1 Inside (binary unary n low) (binary unary' m low))
    (hmore : ∀ left, S.Carries k 0 Inside (operators unary n low left)
      (operators unary' m low left)) :
    S.Carries (k + 1) 0 Inside (operators unary (n + 1) low left)
      (operators unary' (m + 1) low left) := by
  intro u hu hlt a r hr
  cases u with
  | nil => exact carries_of_eq_ok (operators_eof (n + 1) low left) [] hu Nat.one_pos a r hr
  | cons t u =>
    simp only [List.cons_append, operators, front_cons, List.tail_cons] at hr ⊢
    split at hr
    · rename_i op _
      split at hr <;> rename_i hlow
      · cases hr
        exact ⟨t :: u, rfl, List.suffix_refl _, Nat.le_refl _, fun _ => if_pos hlow⟩
      · have hright : S.Carries k 0 Inside
            (binary unary n (op.precedence + 1) >>= fun right =>
              operators unary n low (.binary op left right))
            (binary unary' m (op.precedence + 1) >>= fun right =>
              operators unary' m low (.binary op left right)) :=
          carries_bind_inside (e := 0) (by decide) (hbinary _)
            (fun right => (hmore _).shorter (Nat.sub_le k 1)) stopsShort_inside
        obtain ⟨v, hv, hsuffix, htakes, hcarry⟩ :=
          hright.cons (c := 0) hu (Nat.lt_of_succ_lt_succ hlt) hr (by decide)
        exact ⟨v, hv, hsuffix, htakes, fun h => (if_neg hlow).trans (hcarry h)⟩
    · cases hr
      exact ⟨t :: u, rfl, List.suffix_refl _, Nat.le_refl _, fun _ => rfl⟩

/-- Where fewer than `k` tokens are left before the end, a chain of operators that may be
as long is read whole. -/
theorem carries_binary_and_operators {bound : Nat} (hu : S.Carries bound 1 Inside unary unary')
    (k : Nat) (hk : k ≤ bound) : ∀ n m, k ≤ n + 1 → k ≤ m + 1 →
      (∀ low, S.Carries k 1 Inside (binary unary n low) (binary unary' m low)) ∧
        ∀ low left,
          S.Carries k 0 Inside (operators unary n low left) (operators unary' m low left) := by
  induction k with
  | zero => exact fun n m _ _ => ⟨fun _ => carries_zero, fun _ _ => carries_zero⟩
  | succ k ih =>
    intro n m hn hm
    obtain rfl | hpos := Nat.eq_zero_or_pos k
    · exact ⟨fun low => carries_of_ne_ok (binary_ne_ok (fun _ _ => hu.ne_ok hk) n low),
        fun low left => carries_of_eq_ok (operators_eof n low left)⟩
    obtain ⟨n, rfl⟩ := Nat.exists_eq_add_one_of_ne_zero (show n ≠ 0 by omega)
    obtain ⟨m, rfl⟩ := Nat.exists_eq_add_one_of_ne_zero (show m ≠ 0 by omega)
    obtain ⟨hbinary, hoperators⟩ := ih (by omega) n m (by omega) (by omega)
    refine ⟨fun low => ?_, fun low left => carries_operators hbinary (hoperators low)⟩
    rw [binary, binary]
    exact carries_bind_inside (e := 0) (by decide) (hu.shorter hk)
      (fun left => hoperators low left) stopsShort_inside

end Operators

/-! ## Whole expressions -/

section Level

variable {G G' : Grammar} (hG : S.CarriesGrammar k G G') (hn : k ≤ n) (hm : k ≤ m)
include hG hn hm

theorem carries_expression : S.Carries (k + 1) 1 Inside (expression G n) (expression G' m) := by
  have hbinary := (carries_binary_and_operators (carries_prefixed (carries_operand hG hn hm))
    (k + 1) (Nat.le_refl _) n m (by omega) (by omega)).1 2
  refine carries_bind_inside (e := 0) (by decide) hbinary (fun target => ?_) stopsShort_inside
  refine carries_peek (fun kind => ?_) stopsShort_inside
  cases assignOp? kind with
  | none => exact carries_pure target
  | some op =>
    refine carries_bind_anywhere (e := 0) (by decide) (carries_expect _) fun _ => ?_
    exact carries_bind_pure (hG.expr.shorter (by omega)).loose fun _ _ h => h

theorem carries_lowered : S.Carries (k + 1) 1 Inside (lowered G n) (lowered G' m) :=
  carries_line (fun _ => carries_bind_pure (carries_expression hG hn hm) fun _ _ h => h)
    stopsShort_inside

end Level

end Seam

end HeapScript.Parser
