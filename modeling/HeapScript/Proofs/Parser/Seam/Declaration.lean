import HeapScript.Proofs.Parser.Seam.Basic
import HeapScript.Proofs.Parser.Walk

/-!
# Types, parameters and the look-ahead across a seam

* `Seam.carries_type` and the lemmas after it, one for each parser that reads no statement
  and no expression.
* `settled_atDeclaration` and its like: a look-ahead does not go past a semicolon.
* `Seam.atClassDefinition_carries`, `Seam.atFunctionDefinition_carries`: a definition is
  told before the seam.
-/

namespace HeapScript.Parser

namespace Seam

variable {S : Seam} {k : Nat}

/-! ## Types -/

/-- The pairs of brackets before the seam. Only brackets are taken. -/
theorem arraySuffixes_carries (S : Seam) (t : Ty) (u : List Token) :
    ∃ ty w v, u = w ++ v ∧
      (∀ x ∈ w, x.kind = .symbol (delim .lbracket) ∨ x.kind = .symbol (delim .rbracket)) ∧
      arraySuffixes t (u ++ [S.eof]) = (ty, v ++ [S.eof]) ∧
      (v ≠ [] → arraySuffixes t (u ++ S.more) = (ty, v ++ S.more)) := by
  match u with
  | [] => exact ⟨t, [], [], rfl, by simp, rfl, fun h => absurd rfl h⟩
  | [x] =>
    refine ⟨t, [], [x], rfl, by simp, ?_, fun _ => ?_⟩
    · simp [arraySuffixes, S.eof_kind, TokenKind.isSymbol]
    · cases hmore : S.more with
      | nil => rfl
      | cons b r =>
        have hb := S.not_bracket
        rw [hmore] at hb
        have hb : b.kind.isSymbol (delim .rbracket) = false := hb
        simp [arraySuffixes, hb]
  | x :: y :: u =>
    by_cases hpair : (x.kind.isSymbol (delim .lbracket) && y.kind.isSymbol (delim .rbracket)) = true
    · obtain ⟨ty, w, v, rfl, hw, heof, hmore⟩ := arraySuffixes_carries S (.array t) u
      rw [Bool.and_eq_true, TokenKind.isSymbol_iff, TokenKind.isSymbol_iff] at hpair
      refine ⟨ty, x :: y :: w, v, rfl, ?_, ?_, fun hv => ?_⟩
      · simpa [hpair] using hw
      · simpa [arraySuffixes, hpair, TokenKind.isSymbol] using heof
      · simpa [arraySuffixes, hpair, TokenKind.isSymbol] using hmore hv
    · refine ⟨t, [], x :: y :: u, rfl, by simp, ?_, fun _ => ?_⟩ <;>
        simp only [List.cons_append, arraySuffixes, hpair] <;> rfl

theorem carries_type : S.Carries k 1 Inside type type := by
  intro u _ _ a r hr
  cases u with
  | nil =>
    rw [List.nil_append, type, front_cons, S.eof_kind] at hr
    cases hr
  | cons t u =>
    simp only [List.cons_append, type, front_cons, List.tail_cons] at hr ⊢
    split at hr
    · rename_i name _
      obtain ⟨ty, w, v, rfl, -, heof, hmore⟩ := S.arraySuffixes_carries (.named name) u
      rw [heof] at hr
      cases hr
      refine ⟨v, rfl, ?_, by simp, fun hv => by rw [hmore hv]⟩
      exact (List.suffix_append w v).trans (List.suffix_cons t _)
    · cases hr

/-! ## Parameters -/

theorem carries_param : S.Carries k 1 Anywhere param param := by
  refine carries_eat_any (fun isRef => ?_) (.inl stopsShort_succ)
  refine carries_bind_inside (e := 1) (by decide) carries_type (fun ty => ?_) stopsShort_succ
  exact carries_bind_pure carries_expectIdent fun _ _ h => h

/-- Where fewer than `k` tokens are left before the end, a bound of `k` is no limit. -/
theorem carries_paramsRest (k : Nat) : ∀ n m, k ≤ n → k ≤ m →
    S.Carries k 1 Anywhere (paramsRest n) (paramsRest m) := by
  induction k with
  | zero => exact fun n m _ _ => carries_zero
  | succ k ih =>
    rintro (_ | n) (_ | m) hn hm <;> try omega
    rw [paramsRest, paramsRest]
    refine carries_bind_anywhere (e := 1) (by decide) carries_param fun p => ?_
    refine carries_eat (carries_pure [p]) ?_ (.inl stopsShort_succ)
    refine carries_bind_anywhere (e := 1) (by decide) (carries_expect _) fun _ => ?_
    have hmore := ih n m (by omega) (by omega)
    exact carries_bind_pure (hmore.shorter (by omega)) fun _ _ h => h

theorem carries_params {n m : Nat} (hn : k ≤ n) (hm : k ≤ m) :
    S.Carries k 1 Anywhere (params n) (params m) :=
  carries_eat (carries_pure []) (carries_paramsRest k n m hn hm) (.inl stopsShort_succ)

theorem carries_returnType : S.Carries k 0 Inside returnType returnType := by
  refine carries_eat ?_ (carries_pure (Ty.var, false)) (.inl stopsShort_inside)
  refine carries_eat_any (fun returnsRef => ?_) (.inl stopsShort_inside)
  exact carries_bind_pure carries_type.loose fun _ _ h => h

/-! ## Flags -/

theorem flags_carries (S : Seam) (f : DeclFlags) (u : List Token) :
    ∃ fs v, v <:+ u ∧ flags f (u ++ [S.eof]) = (fs, v ++ [S.eof]) ∧
      (v ≠ [] → flags f (u ++ S.more) = (fs, v ++ S.more)) := by
  induction u generalizing f with
  | nil =>
    refine ⟨f, [], List.suffix_refl _, ?_, fun h => absurd rfl h⟩
    rw [List.nil_append, flags, S.eof_kind]
    rfl
  | cons t u ih =>
    simp only [List.cons_append, flags]
    split
    · rename_i set _
      obtain ⟨fs, v, hv, heof, hmore⟩ := ih (set f)
      exact ⟨fs, v, hv.trans (List.suffix_cons t u), heof, hmore⟩
    · exact ⟨f, t :: u, List.suffix_refl _, rfl, fun _ => rfl⟩

theorem carries_flags : S.Carries k 0 Inside (fun toks => .ok (flags {} toks))
    (fun toks => .ok (flags {} toks)) := by
  intro u _ _ a r hr
  obtain ⟨fs, v, hv, heof, hmore⟩ := S.flags_carries {} u
  simp only [heof] at hr
  cases hr
  exact ⟨v, rfl, hv, hv.length_le, fun h => by simp only [hmore h]⟩

/-! ## Classes -/

theorem carries_members (k : Nat) : ∀ n m, k ≤ n → k ≤ m →
    S.Carries k 1 Anywhere (members n) (members m) := by
  induction k with
  | zero => exact fun n m _ _ => carries_zero
  | succ k ih =>
    rintro (_ | n) (_ | m) hn hm <;> try omega
    rw [members, members]
    refine carries_eat (carries_pure []) ?_ (.inl stopsShort_succ)
    refine carries_bind_anywhere (e := 1) (by decide) carries_param fun p => ?_
    refine carries_bind_anywhere (e := 1) (by decide) (carries_expect _) fun _ => ?_
    have hmore := ih n m (by omega) (by omega)
    exact carries_bind_pure (hmore.shorter (by omega)) fun _ _ h => h

/-- The members of a class end with the brace. -/
theorem members_closes (n : Nat) : ∀ toks ps rest, members n toks = .ok (ps, rest) →
    ∃ w t, toks = w ++ t :: rest ∧ t.kind = .symbol (delim .rbrace) := by
  induction n with
  | zero => exact fun toks ps rest h => absurd h fail_ne_ok
  | succ n ih =>
    intro toks ps rest h
    obtain ⟨b, r, heat, htail⟩ := bind_apply_eq_ok.1 h
    obtain ⟨rfl, t, rfl, ht⟩ | ⟨rfl, -, rfl⟩ := eat_eq_ok.1 heat
    · obtain ⟨-, rfl⟩ := pure_apply_eq_ok.1 htail
      exact ⟨[], t, rfl, ht⟩
    · obtain ⟨p, r₁, hparam, hbehind⟩ := bind_apply_eq_ok.1 htail
      obtain ⟨_, r₂, hsemi, hmembers⟩ := bind_apply_eq_ok.1 hbehind
      obtain ⟨qs, r₃, hrest, hpure⟩ := bind_apply_eq_ok.1 hmembers
      obtain ⟨-, rfl⟩ := pure_apply_eq_ok.1 hpure
      obtain ⟨w, t, rfl, ht⟩ := ih _ _ _ hrest
      obtain ⟨semi, rfl, -⟩ := expect_eq_ok.1 hsemi
      obtain ⟨taken, rfl⟩ := walks_param.suffix hparam
      exact ⟨taken ++ semi :: w, t, by simp, ht⟩

end Seam

/-! ## Looking ahead -/

/-- Whether the tokens at the front pass the tests, one after another. -/
def fronts : List (TokenKind → Bool) → List Token → Bool
  | [], _ => true
  | P :: Ps, toks => P (front toks).kind && fronts Ps toks.tail

/-- What is behind a token that passes none of the tests does not matter. -/
theorem fronts_settled {Ps : List (TokenKind → Bool)} {t : Token}
    (ht : ∀ P ∈ Ps, P t.kind = false) (w v v' : List Token) :
    fronts Ps (w ++ t :: v) = fronts Ps (w ++ t :: v') := by
  induction Ps generalizing w with
  | nil => rfl
  | cons P Ps ih =>
    cases w with
    | nil => simp [fronts, ht P (by simp)]
    | cons x w =>
      show (P x.kind && _) = (P x.kind && _)
      rw [List.cons_append, List.tail_cons, List.cons_append, List.tail_cons,
        ih (fun Q hQ => ht Q (by simp [hQ])) w]

theorem Seam.fronts_carries (S : Seam) {Ps : List (TokenKind → Bool)}
    (heof : ∀ P ∈ Ps, P .eof = false) {u : List Token} (h : fronts Ps (u ++ [S.eof]) = true) :
    fronts Ps (u ++ S.more) = true := by
  induction Ps generalizing u with
  | nil => rfl
  | cons P Ps ih =>
    obtain ⟨hP, hPs⟩ := Bool.and_eq_true_iff.1 h
    cases u with
    | nil =>
      have hP : P S.eof.kind = true := hP
      rw [S.eof_kind, heof P (by simp)] at hP
      cases hP
    | cons x u =>
      exact Bool.and_eq_true_iff.2 ⟨hP, ih (fun Q hQ => heof Q (by simp [hQ])) hPs⟩

/-- The first tokens of the definition of a class. -/
def classFronts : List (TokenKind → Bool) :=
  [(·.isSymbol (kw .classDef)), isIdent, (·.isSymbol (delim .lbrace))]

/-- The first tokens of the definition of a function. -/
def functionFronts : List (TokenKind → Bool) :=
  [(·.isSymbol (kw .func)), isIdent, (·.isSymbol (delim .lparen))]

theorem atClassDefinition_eq (toks : List Token) :
    atClassDefinition toks = fronts classFronts toks := by
  simp only [atClassDefinition, fronts, classFronts, at?, kindAt, Bool.and_assoc, Bool.and_true,
    ← List.drop_one, List.drop_drop]

theorem atFunctionDefinition_eq (toks : List Token) :
    atFunctionDefinition toks =
      if at? (kw .closure) toks then fronts functionFronts toks.tail
      else fronts functionFronts toks := by
  rw [atFunctionDefinition]
  split <;> simp only [fronts, functionFronts, kindAt, Bool.and_assoc, Bool.and_true,
    ← List.drop_one, List.drop_drop, List.drop_zero]

/-- A token before the seam at which every look-ahead stops. -/
theorem arraySuffixes_settled (t : Ty) {semi : Token}
    (hsemi : semi.kind = .symbol (delim .semicolon)) (w : List Token) :
    ∃ ty w', ∀ v, arraySuffixes t (w ++ semi :: v) = (ty, w' ++ semi :: v) := by
  have hnot {d : Delimiter} (hd : d ≠ .semicolon) : semi.kind.isSymbol (delim d) = false := by
    rw [hsemi]
    exact decide_eq_false fun h => hd (by cases h; rfl)
  match w with
  | [] =>
    refine ⟨t, [], fun v => ?_⟩
    cases v <;> simp [arraySuffixes, hnot (d := .lbracket) (by decide)]
  | [x] =>
    refine ⟨t, [x], fun v => ?_⟩
    simp [arraySuffixes, hnot (d := .rbracket) (by decide)]
  | x :: y :: w =>
    by_cases hpair : (x.kind.isSymbol (delim .lbracket) && y.kind.isSymbol (delim .rbracket)) = true
    · obtain ⟨ty, w', h⟩ := arraySuffixes_settled (.array t) hsemi w
      exact ⟨ty, w', fun v => by simpa [arraySuffixes, hpair] using h v⟩
    · exact ⟨t, x :: y :: w, fun v => by simp [arraySuffixes, hpair]⟩

/-- A look-ahead that does not go past a semicolon. -/
def Settled (look : List Token → Bool) : Prop :=
  ∀ w semi v v', semi.kind = .symbol (delim .semicolon) →
    look (w ++ semi :: v) = look (w ++ semi :: v')

theorem settled_atDeclaration : Settled atDeclaration := by
  intro w semi v v' hsemi
  cases w with
  | nil => simp [atDeclaration, hsemi, flag?, typeName?]
  | cons x w =>
    simp only [atDeclaration, List.cons_append, front_cons, List.tail_cons]
    congr 1
    split
    · rename_i name _
      obtain ⟨ty, w', h⟩ := arraySuffixes_settled (.named name) hsemi w
      rw [h v, h v']
      cases w' <;> rfl
    · rfl

theorem settled_atClassDefinition : Settled atClassDefinition := by
  intro w semi v v' hsemi
  rw [atClassDefinition_eq, atClassDefinition_eq]
  exact fronts_settled (by simp [classFronts, hsemi, TokenKind.isSymbol, isIdent]) w v v'

theorem settled_atFunctionDefinition : Settled atFunctionDefinition := by
  intro w semi v v' hsemi
  have hfronts : ∀ P ∈ functionFronts, P semi.kind = false := by
    simp [functionFronts, hsemi, TokenKind.isSymbol, isIdent]
  rw [atFunctionDefinition_eq, atFunctionDefinition_eq]
  cases w with
  | nil =>
    have hclosure (v : List Token) : at? (kw .closure) (semi :: v) = false :=
      not_at_cons hsemi (by rintro ⟨⟩)
    rw [List.nil_append, List.nil_append, hclosure, hclosure]
    exact fronts_settled hfronts [] v v'
  | cons x w =>
    show (if at? _ [x] = true then _ else _) = if at? _ [x] = true then _ else _
    congr 1
    · exact fronts_settled hfronts w v v'
    · exact fronts_settled hfronts (x :: w) v v'

namespace Seam

variable (S : Seam) {u : List Token}

theorem atClassDefinition_carries (h : atClassDefinition (u ++ [S.eof]) = true) :
    atClassDefinition (u ++ S.more) = true := by
  rw [atClassDefinition_eq] at h ⊢
  exact S.fronts_carries (by simp [classFronts, TokenKind.isSymbol, isIdent]) h

theorem atFunctionDefinition_carries (h : atFunctionDefinition (u ++ [S.eof]) = true) :
    atClassDefinition (u ++ S.more) = false ∧ atFunctionDefinition (u ++ S.more) = true := by
  have hfronts : ∀ P ∈ functionFronts, P .eof = false := by
    simp [functionFronts, TokenKind.isSymbol, isIdent]
  have hclass {x : Token} {r : List Token} {s : Symbol} (hx : x.kind = .symbol s)
      (hs : s ≠ kw .classDef) : atClassDefinition (x :: r) = false := by
    rw [atClassDefinition, not_at_cons hx fun h => hs (by cases h; rfl)]
    rfl
  rw [atFunctionDefinition_eq] at h ⊢
  cases u with
  | nil =>
    rw [List.nil_append, S.not_at_eof] at h
    simp [fronts, functionFronts, S.eof_kind, TokenKind.isSymbol] at h
  | cons x u =>
    have hclosure (r : List Token) : at? (kw .closure) (x :: u ++ r) = at? (kw .closure) [x] := rfl
    rw [hclosure] at h ⊢
    by_cases hx : at? (kw .closure) [x] = true
    · rw [if_pos hx] at h ⊢
      exact ⟨hclass (at?_iff.1 hx) (by decide), S.fronts_carries hfronts h⟩
    · rw [if_neg hx] at h ⊢
      have hfunc := TokenKind.isSymbol_iff.1 (Bool.and_eq_true_iff.1 h).1
      exact ⟨hclass hfunc (by decide), S.fronts_carries hfronts h⟩

end Seam

/-! ## Definitions of classes -/

/-- The last tokens of the statement are the definition of a class. -/
inductive EndsInClass : Stmt → Prop where
  | classDef {c : ClassDef} {l : Nat} : EndsInClass (.classDef c l)
  | thenBranch {cond : Expr} {s : Stmt} {l : Nat} (h : EndsInClass s) :
    EndsInClass (.ifThen cond s none l)
  | elseBranch {cond : Expr} {t s : Stmt} {l : Nat} (h : EndsInClass s) :
    EndsInClass (.ifThen cond t (some s) l)
  | whileLoop {cond : Expr} {s : Stmt} {l : Nat} (h : EndsInClass s) :
    EndsInClass (.whileLoop cond s l)
  | forLoop {init step : Option Stmt} {cond : Option Expr} {s : Stmt} {l : Nat}
    (h : EndsInClass s) : EndsInClass (.forLoop init cond step s l)

/-- The definition of a class behind its opening brace. -/
def classRest (name : String) (l n : Nat) : Parser Stmt := do
  let slots ← members n
  let _ ← eat (delim .semicolon)
  return .classDef { name, members := slots, line := l } l

/-- A class that ends at the seam without its semicolon does not find one there. -/
def Seam.Clear (S : Seam) (s : Stmt) (v : List Token) : Prop :=
  v = [] → EndsInClass s → at? (delim .semicolon) S.more = true →
    ∃ t ∈ S.before.getLast?, t.kind = .symbol (delim .semicolon)

namespace Seam

variable {S : Seam} {k n m : Nat}

/-- The brace before the seam is no semicolon. -/
theorem carries_classRest (hn : k ≤ n) (hm : k ≤ m) (name : String) (l : Nat) :
    S.Carries k 1 S.Clear (classRest name l n) (classRest name l m) := by
  intro u hu hlt s r hr
  obtain ⟨ps, r₁, hps, htail⟩ := bind_apply_eq_ok.1 hr
  obtain ⟨v, rfl, hv, htakes, hcarry⟩ := carries_members k n m hn hm u hu hlt ps r₁ hps
  obtain ⟨w, close, hclose, hkind⟩ := members_closes n _ _ _ hps
  obtain rfl : u = w ++ close :: v :=
    List.append_cancel_right (hclose.trans (List.append_assoc w (close :: v) [S.eof]).symm)
  obtain ⟨b, r₂, heat, hpure⟩ := bind_apply_eq_ok.1 htail
  obtain ⟨rfl, rfl⟩ := pure_apply_eq_ok.1 hpure
  rcases eat_eq_ok.1 heat with ⟨-, semi, hsemi, hkind'⟩ | ⟨-, hat, rfl⟩
  · obtain ⟨v, rfl, rfl⟩ := eq_cons hsemi hkind' nofun
    refine ⟨v, rfl, (List.suffix_cons _ v).trans hv, by simp at htakes ⊢; omega, fun _ => ?_⟩
    rw [classRest, bind_ok (hcarry trivial), List.cons_append, bind_ok (eat_cons hkind')]
    rfl
  · refine ⟨v, rfl, hv, htakes, fun hclear => ?_⟩
    have hmore : at? (delim .semicolon) (v ++ S.more) = false := by
      cases v with
      | cons x v => exact hat
      | nil =>
        rw [Bool.eq_false_iff]
        intro hat
        obtain ⟨t, ht, hsemi⟩ := hclear rfl .classDef hat
        obtain ⟨front, hbefore⟩ := hu
        rw [← hbefore, ← List.append_assoc, List.getLast?_concat] at ht
        cases ht
        rw [hkind] at hsemi
        cases hsemi
    rw [classRest, bind_ok (hcarry trivial), bind_ok (eat_of_not_at hmore)]
    rfl

theorem carries_classDefinition (hn : k ≤ n) (hm : k ≤ m) :
    S.Carries (k + 1) 1 S.Clear (classDefinition n) (classDefinition m) := by
  refine carries_line (fun l => ?_) (.inl nofun)
  refine carries_bind_anywhere (e := 1) (by decide) (carries_expect _) fun _ => ?_
  refine carries_bind_anywhere (e := 1) (by decide) carries_expectIdent fun name => ?_
  refine carries_bind_anywhere (e := 1) (by decide) (carries_expect _) fun _ => ?_
  exact carries_classRest (by omega) (by omega) name l

end Seam

end HeapScript.Parser
