import HeapScript.Proofs.Parser.Outcome

/-!
# Parsing across a seam

Where the end of a file is taken away and more tokens are put there, a parser that has
come to an end before that place should not notice.

* `Seam` is such a place.
* `Seam.Carries`: what a parser reads before the seam, it reads before other tokens too,
  at a level that is as deep. What it may not be asked for is what looks at the seam: that
  is a condition on what was read and on what is left before the seam.
* The lemmas go through the building blocks of parsers. Where one parser is followed by
  another that takes a token, it has not come to the seam.
-/

namespace HeapScript.Parser

/-- A place behind some tokens where the end of the file stood and other tokens stand now.
These do not begin with one that a type or an `if` would go on with. -/
structure Seam where
  before : List Token
  eof : Token
  more : List Token
  eof_kind : eof.kind = .eof
  not_bracket : at? (delim .rbracket) more = false
  not_else : at? (kw .elseThen) more = false

variable {α β : Type} {S : Seam} {k k' c d e : Nat}

/-- Nothing is left before the seam, or something is. -/
def Inside (_ : α) (v : List Token) : Prop := v ≠ []

/-- No condition on what is left before the seam. -/
def Anywhere (_ : α) (_ : List Token) : Prop := True

/-- The second parser reads from fewer than `k` tokens before the seam what the first one
reads there before the end of the file, and takes the same tokens, at least `d` of them.
It need not do so if what is read and what is left do not meet the condition. -/
def Seam.Carries (S : Seam) (k d : Nat) (Z : α → List Token → Prop) (p p' : Parser α) : Prop :=
  ∀ u, u <:+ S.before → u.length < k → ∀ a r, p (u ++ [S.eof]) = .ok (a, r) →
    ∃ v, r = v ++ [S.eof] ∧ v <:+ u ∧ v.length + d ≤ u.length ∧
      (Z a v → p' (u ++ S.more) = .ok (a, v ++ S.more))

/-- What comes to the seam is not asked for, or takes a token and so began before it. -/
def StopsShort (d : Nat) (Z : α → List Token → Prop) : Prop :=
  d ≠ 0 ∨ ∀ a, ¬Z a []

theorem stopsShort_inside : StopsShort d (@Inside α) := .inr fun _ h => h rfl

theorem stopsShort_succ {Z : α → List Token → Prop} : StopsShort (d + 1) Z :=
  .inl (Nat.succ_ne_zero d)

theorem Seam.not_at_eof (S : Seam) (s : Symbol) : at? s [S.eof] = false :=
  not_at_cons S.eof_kind nofun

/-- A token that is not the end of the file stands before the seam. -/
theorem Seam.eq_cons {u r : List Token} {tok : Token} {K : TokenKind}
    (h : u ++ [S.eof] = tok :: r) (htok : tok.kind = K) (hK : K ≠ .eof) :
    ∃ v, u = tok :: v ∧ r = v ++ [S.eof] := by
  cases u with
  | nil =>
    cases h
    exact absurd (htok.symm.trans S.eof_kind) hK
  | cons t v =>
    cases h
    exact ⟨v, rfl, rfl⟩

namespace Seam

variable {Z : α → List Token → Prop} {Y : β → List Token → Prop} {p p' : Parser α}

theorem Carries.mono {X : α → List Token → Prop} (h : S.Carries k d Z p p') (hk : k' ≤ k)
    (hd : c ≤ d) (hZ : ∀ a v, X a v → Z a v) : S.Carries k' c X p p' := by
  intro u hu hlt a r hr
  obtain ⟨v, hv, hsuffix, htakes, hcarry⟩ := h u hu (Nat.lt_of_lt_of_le hlt hk) a r hr
  exact ⟨v, hv, hsuffix, by omega, fun ha => hcarry (hZ a v ha)⟩

/-- Of fewer tokens. -/
theorem Carries.shorter (h : S.Carries k d Z p p') (hk : k' ≤ k) : S.Carries k' d Z p p' :=
  h.mono hk (Nat.le_refl d) fun _ _ ha => ha

/-- Whether a token is taken is forgotten. -/
theorem Carries.loose (h : S.Carries k d Z p p') : S.Carries k 0 Z p p' :=
  h.mono (Nat.le_refl k) (Nat.zero_le d) fun _ _ ha => ha

theorem Carries.anywhere (h : S.Carries k d Anywhere p p') : S.Carries k d Z p p' :=
  h.mono (Nat.le_refl k) (Nat.le_refl d) fun _ _ _ => trivial

theorem carries_zero : S.Carries 0 d Z p p' := fun _ _ h => absurd h (Nat.not_lt_zero _)

/-- A parser that takes a token fails at the end. -/
theorem Carries.ne_ok (h : S.Carries k (d + 1) Z p p') (hk : 0 < k) {a : α} {r : List Token} :
    p [S.eof] ≠ .ok (a, r) := by
  intro hr
  obtain ⟨v, -, -, htakes, -⟩ := h [] (List.nil_suffix) hk a r hr
  exact absurd htakes (Nat.not_succ_le_zero _)

/-! Where no token is left, all depends on what the parser makes of the end. -/

theorem carries_of_ne_ok (h : ∀ a r, p [S.eof] ≠ .ok (a, r)) : S.Carries 1 d Z p p' := by
  intro u _ hlt a r hr
  obtain rfl := List.length_eq_zero_iff.1 (Nat.lt_one_iff.1 hlt)
  exact absurd hr (h a r)

theorem carries_of_eq_ok {a : α} (h : p [S.eof] = .ok (a, [S.eof])) :
    S.Carries 1 0 Inside p p' := by
  intro u _ hlt b r hr
  obtain rfl := List.length_eq_zero_iff.1 (Nat.lt_one_iff.1 hlt)
  cases h.symm.trans hr
  exact ⟨[], rfl, List.nil_suffix, Nat.le_refl 0, fun h => absurd rfl h⟩

theorem carries_pure (a : α) : S.Carries k 0 Z (pure a) (pure a) := by
  intro u _ _ b r hr
  obtain ⟨rfl, rfl⟩ := pure_apply_eq_ok.1 hr
  exact ⟨u, rfl, List.suffix_refl u, Nat.le_refl _, fun _ => rfl⟩

theorem carries_fail (fault : TokenKind → ParseFault) {f : α → Parser β} {q : Parser β} :
    S.Carries k d Y (fail fault >>= f) q :=
  fun _ _ _ _ _ hr => absurd hr nofun

/-- One parser after another. The first may be asked for what the second succeeds on. -/
theorem carries_bind {X : α → List Token → Prop} {f f' : α → Parser β} (hc : c ≤ d + e)
    (hp : S.Carries k d X p p') (hf : ∀ a, S.Carries (k - d) e Y (f a) (f' a))
    (hZ : ∀ a v b w, f a (v ++ [S.eof]) = .ok (b, w ++ [S.eof]) → w.length + e ≤ v.length →
      Y b w → X a v) :
    S.Carries k c Y (p >>= f) (p' >>= f') := by
  intro u hu hlt b r hr
  obtain ⟨a, r₁, hfirst, hr⟩ := bind_apply_eq_ok.1 hr
  obtain ⟨v, rfl, hv, htakes, hcarry⟩ := hp u hu hlt a r₁ hfirst
  obtain ⟨w, rfl, hw, htakes', hcarry'⟩ := hf a v (hv.trans hu) (by omega) b r hr
  refine ⟨w, rfl, hw.trans hv, by omega, fun hb => ?_⟩
  rw [bind_ok (hcarry (hZ a v b w hr htakes' hb))]
  exact hcarry' hb

/-- A parser that does not look at the seam, before any other. -/
theorem carries_bind_anywhere {f f' : α → Parser β} (hc : c ≤ d + e)
    (hp : S.Carries k d Anywhere p p') (hf : ∀ a, S.Carries (k - d) e Y (f a) (f' a)) :
    S.Carries k c Y (p >>= f) (p' >>= f') :=
  carries_bind hc hp hf fun _ _ _ _ _ _ _ => trivial

/-- A parser that may look at the seam, before one that does not get there. -/
theorem carries_bind_inside {f f' : α → Parser β} (hc : c ≤ d + e)
    (hp : S.Carries k d Inside p p') (hf : ∀ a, S.Carries (k - d) e Y (f a) (f' a))
    (hstop : StopsShort e Y) : S.Carries k c Y (p >>= f) (p' >>= f') := by
  refine carries_bind hc hp hf ?_
  rintro a _ b w - hlt hb rfl
  obtain rfl := List.length_eq_zero_iff.1 (Nat.le_zero.1 (Nat.le_trans (Nat.le_add_right _ e) hlt))
  rcases hstop with hd | hnot
  · exact hd (Nat.le_zero.1 (Nat.le_trans (Nat.le_add_left ..) hlt))
  · exact hnot b hb

theorem carries_map {f : α → β} (hp : S.Carries k d Z p p') (hZ : ∀ a v, Y (f a) v → Z a v) :
    S.Carries k d Y (f <$> p) (f <$> p') := by
  intro u hu hlt b r hr
  obtain ⟨a, ha, rfl⟩ := map_apply_eq_ok.1 hr
  obtain ⟨v, hv, hsuffix, htakes, hcarry⟩ := hp u hu hlt a r ha
  exact ⟨v, hv, hsuffix, htakes, fun hb => map_ok (hcarry (hZ a v hb))⟩

theorem carries_bind_pure {f : α → β} (hp : S.Carries k d Z p p') (hZ : ∀ a v, Y (f a) v → Z a v) :
    S.Carries k d Y (p >>= fun a => pure (f a)) (p' >>= fun a => pure (f a)) := by
  rw [← map_eq_pure_bind, ← map_eq_pure_bind]
  exact carries_map hp hZ

/-! ## Looking at the front -/

/-- A parser that depends on the front token, if it does not come to the seam. -/
theorem carries_front {g h : Token → Parser α} (hg : ∀ t, S.Carries k d Z (g t) (h t))
    (hstop : StopsShort d Z) :
    S.Carries k d Z (fun toks => g (front toks) toks) fun toks => h (front toks) toks := by
  intro u hu hlt a r hr
  obtain ⟨v, hv, hsuffix, htakes, hcarry⟩ := hg _ u hu hlt a r hr
  refine ⟨v, hv, hsuffix, htakes, fun ha => ?_⟩
  cases u with
  | cons t u => exact hcarry ha
  | nil =>
    obtain rfl := List.suffix_nil.1 hsuffix
    rcases hstop with hd | hnot
    · exact absurd (Nat.le_zero.1 htakes) (by simpa using hd)
    · exact absurd ha (hnot a)

theorem carries_line {f f' : Nat → Parser α} (hf : ∀ l, S.Carries k d Z (f l) (f' l))
    (hstop : StopsShort d Z) : S.Carries k d Z (line >>= f) (line >>= f') :=
  carries_front (g := fun t => f t.line) (h := fun t => f' t.line) (fun t => hf t.line) hstop

theorem carries_peek {f f' : TokenKind → Parser α} (hf : ∀ t, S.Carries k d Z (f t) (f' t))
    (hstop : StopsShort d Z) : S.Carries k d Z (peek >>= f) (peek >>= f') :=
  carries_front (g := fun t => f t.kind) (h := fun t => f' t.kind) (fun t => hf t.kind) hstop

theorem carries_check {s : Symbol} {f f' : Bool → Parser α}
    (hf : ∀ b, S.Carries k d Z (f b) (f' b)) (hstop : StopsShort d Z) :
    S.Carries k d Z (check s >>= f) (check s >>= f') :=
  carries_front (g := fun t => f (t.kind.isSymbol s)) (h := fun t => f' (t.kind.isSymbol s))
    (fun t => hf (t.kind.isSymbol s)) hstop

/-- Parsers between which a look-ahead decides, if it decides the same at the seam. -/
theorem carries_ite {look : List Token → Bool} {q q' : Parser α} (hp : S.Carries k d Z p p')
    (hq : S.Carries k d Z q q')
    (htrue : ∀ u v a, u <:+ S.before → u.length < k → p (u ++ [S.eof]) = .ok (a, v ++ [S.eof]) →
      v <:+ u → Z a v → look (u ++ [S.eof]) = true → look (u ++ S.more) = true)
    (hfalse : ∀ u v a, u <:+ S.before → u.length < k → q (u ++ [S.eof]) = .ok (a, v ++ [S.eof]) →
      v <:+ u → Z a v → look (u ++ [S.eof]) = false → look (u ++ S.more) = false) :
    S.Carries k d Z (fun toks => if look toks then p toks else q toks)
      fun toks => if look toks then p' toks else q' toks := by
  intro u hu hlt a r hr
  cases hat : look (u ++ [S.eof]) with
  | true =>
    simp only [hat, if_true] at hr
    obtain ⟨v, rfl, hv, htakes, hcarry⟩ := hp u hu hlt a r hr
    refine ⟨v, rfl, hv, htakes, fun ha => ?_⟩
    exact (if_pos (htrue u v a hu hlt hr hv ha hat)).trans (hcarry ha)
  | false =>
    simp only [hat, Bool.false_eq_true, if_false] at hr
    obtain ⟨v, rfl, hv, htakes, hcarry⟩ := hq u hu hlt a r hr
    refine ⟨v, rfl, hv, htakes, fun ha => ?_⟩
    exact (if_neg (by simp [hfalse u v a hu hlt hr hv ha hat])).trans (hcarry ha)

/-! ## Taking a token -/

theorem carries_expect (s : Symbol) {Z : Unit → List Token → Prop} :
    S.Carries k 1 Z (expect s) (expect s) := by
  intro u _ _ a r hr
  obtain ⟨tok, htoks, hkind⟩ := expect_eq_ok.1 hr
  obtain ⟨v, rfl, rfl⟩ := eq_cons htoks hkind nofun
  exact ⟨v, rfl, List.suffix_cons _ v, Nat.le_refl _, fun _ => expect_cons hkind⟩

theorem carries_expectIdent {Z : String → List Token → Prop} :
    S.Carries k 1 Z expectIdent expectIdent := by
  intro u _ _ a r hr
  obtain ⟨tok, htoks, hkind⟩ := expectIdent_eq_ok.1 hr
  obtain ⟨v, rfl, rfl⟩ := eq_cons htoks hkind nofun
  exact ⟨v, rfl, List.suffix_cons _ v, Nat.le_refl _, fun _ => expectIdent_cons hkind⟩

/-- What was read behind the front token. -/
theorem Carries.cons {t : Token} {u : List Token} {a : α} {r : List Token}
    (hp : S.Carries k d Z p p') (hu : t :: u <:+ S.before) (hlt : u.length < k)
    (hr : p (u ++ [S.eof]) = .ok (a, r)) (hc : c ≤ d + 1) :
    ∃ v, r = v ++ [S.eof] ∧ v <:+ t :: u ∧ v.length + c ≤ (t :: u).length ∧
      (Z a v → p' (u ++ S.more) = .ok (a, v ++ S.more)) := by
  obtain ⟨v, hv, hsuffix, htakes, hcarry⟩ := hp u ((List.suffix_cons t u).trans hu) hlt a r hr
  refine ⟨v, hv, hsuffix.trans (List.suffix_cons t u), ?_, hcarry⟩
  rw [List.length_cons]
  omega

/-- A symbol that may be missing. Where it is missing at the seam, it must not stand behind
the seam, or what follows does not get there. -/
theorem carries_eat {s : Symbol} {f f' : Bool → Parser α}
    (htrue : S.Carries (k - 1) (d - 1) Z (f true) (f' true))
    (hfalse : S.Carries k d Z (f false) (f' false))
    (hstop : StopsShort d Z ∨ at? s S.more = false) :
    S.Carries k d Z (eat s >>= f) (eat s >>= f') := by
  intro u hu hlt a r hr
  cases hat : at? s (u ++ [S.eof]) with
  | true =>
    obtain ⟨tok, htoks, hkind⟩ := eq_cons_of_front (at?_iff.1 hat) nofun
    obtain ⟨u, rfl, -⟩ := eq_cons htoks hkind nofun
    rw [List.cons_append, bind_ok (eat_cons hkind)] at hr
    rw [List.length_cons] at hlt
    obtain ⟨v, hv, hsuffix, htakes, hcarry⟩ := htrue.cons (c := d) hu (by omega) hr (by omega)
    refine ⟨v, hv, hsuffix, htakes, fun ha => ?_⟩
    rw [List.cons_append, bind_ok (eat_cons hkind)]
    exact hcarry ha
  | false =>
    rw [bind_ok (eat_of_not_at hat)] at hr
    obtain ⟨v, hv, hsuffix, htakes, hcarry⟩ := hfalse u hu hlt a r hr
    refine ⟨v, hv, hsuffix, htakes, fun ha => ?_⟩
    have hmore : at? s (u ++ S.more) = false := by
      cases u with
      | cons t u => exact hat
      | nil =>
        obtain rfl := List.suffix_nil.1 hsuffix
        rcases hstop with (hd | hnot) | hmore
        · exact absurd (Nat.le_zero.1 htakes) (by simpa using hd)
        · exact absurd ha (hnot a)
        · exact hmore
    rw [bind_ok (eat_of_not_at hmore)]
    exact hcarry ha

/-- A symbol that may be missing, before what reads the same in both cases. -/
theorem carries_eat_any {s : Symbol} {f f' : Bool → Parser α}
    (hf : ∀ b, S.Carries k d Z (f b) (f' b)) (hstop : StopsShort d Z ∨ at? s S.more = false) :
    S.Carries k d Z (eat s >>= f) (eat s >>= f') :=
  carries_eat ((hf true).mono (Nat.sub_le k 1) (Nat.sub_le d 1) fun _ _ h => h) (hf false) hstop

/-! ## Parts that may be missing -/

theorem carries_unlessAt (s : Symbol) {Y : Option α → List Token → Prop}
    (hp : S.Carries k d Z p p') (hZ : ∀ a v, Y (some a) v → Z a v) (hnil : ∀ o, ¬Y o []) :
    S.Carries k 0 Y (unlessAt s p) (unlessAt s p') := by
  refine carries_check (fun b => ?_) (.inr hnil)
  cases b with
  | true => exact carries_pure none
  | false => exact (carries_map hp hZ).loose

theorem carries_behind (s : Symbol) {Y : Option α → List Token → Prop}
    (hp : S.Carries (k - 1) d Z p p') (hZ : ∀ a v, Y (some a) v → Z a v)
    (hstop : (∀ o, ¬Y o []) ∨ at? s S.more = false) :
    S.Carries k 0 Y (behind s p) (behind s p') := by
  refine carries_eat ?_ (carries_pure none) (hstop.imp_left .inr)
  exact (carries_map hp hZ).loose

end Seam

end HeapScript.Parser
