import HeapScript.Proofs.Parser.Walk

/-!
# Progress of parsers

A parser with a bound on its depth or on the length of its lists is one without a bound as
long as it does not come to the bound. It does not, because each round takes a token.

* `tokensLeft` counts the tokens before the end of the file.
* `Agree`: two parsers do the same where fewer than `k` tokens are left, and take at least
  `d` tokens where they succeed. The lemmas go through the building blocks of parsers.
* `Enough`: two bounds that lists with so few tokens do not tell apart. It is an induction
  along which the rounds of a loop go.
-/

namespace HeapScript.Parser

variable {α β : Type} {k k' c d e n m : Nat} {toks rest : List Token}

/-! ## Tokens that are left -/

/-- The number of tokens before the first end of the file. -/
def tokensLeft : List Token → Nat
  | [] => 0
  | t :: r =>
    match t.kind with
    | .eof => 0
    | _ => tokensLeft r + 1

theorem tokensLeft_cons {t : Token} {r : List Token} (h : t.kind ≠ .eof) :
    tokensLeft (t :: r) = tokensLeft r + 1 := by
  rw [tokensLeft]
  split
  · rename_i hkind
    exact absurd hkind h
  · rfl

theorem tokensLeft_tail (h : (front toks).kind ≠ .eof) :
    tokensLeft toks = tokensLeft toks.tail + 1 := by
  cases toks with
  | nil => exact absurd rfl h
  | cons t r => exact tokensLeft_cons h

theorem Ahead.tokensLeft_le (h : Ahead toks rest) : tokensLeft rest ≤ tokensLeft toks := by
  obtain ⟨taken, rfl, htaken⟩ := h
  induction taken with
  | nil => exact Nat.le_refl _
  | cons t taken ih =>
    rw [List.cons_append, tokensLeft_cons (htaken t (by simp))]
    exact Nat.le_succ_of_le (ih fun t' ht' => htaken t' (by simp [ht']))

/-- What is ahead with fewer tokens left is a shorter list. -/
theorem Ahead.length_lt (h : Ahead toks rest) (hlt : tokensLeft rest < tokensLeft toks) :
    rest.length < toks.length := by
  refine Nat.lt_of_le_of_ne h.suffix.length_le fun hlen => ?_
  rw [h.suffix.eq_of_length hlen] at hlt
  exact Nat.lt_irrefl _ hlt

/-- One of the tokens is the end of the file, and so is not counted. -/
theorem tokensLeft_lt_length (h : ∃ t ∈ toks, t.kind = .eof) : tokensLeft toks < toks.length := by
  obtain ⟨t, ht, hkind⟩ := h
  induction toks with
  | nil => cases ht
  | cons t' r ih =>
    rw [tokensLeft, List.length_cons]
    split
    · exact Nat.succ_pos _
    · rename_i hnot
      obtain rfl | ht := List.mem_cons.1 ht
      · exact absurd hkind hnot
      · exact Nat.succ_lt_succ (ih ht)

/-! ## Parsers that agree -/

/-- Where fewer than `k` tokens are left, the second parser does what the first one does,
and where they succeed they have taken at least `d` tokens. -/
def Agree (k d : Nat) (p q : Parser α) : Prop :=
  ∀ toks, tokensLeft toks < k →
    p toks = q toks ∧ ∀ a rest, p toks = .ok (a, rest) → tokensLeft rest + d ≤ tokensLeft toks

section Rules

variable {p q : Parser α}

theorem Agree.mono (h : Agree k d p q) (hk : k' ≤ k) (hd : c ≤ d) : Agree k' c p q := by
  intro toks hlt
  obtain ⟨heq, htakes⟩ := h toks (Nat.lt_of_lt_of_le hlt hk)
  exact ⟨heq, fun a rest hr => Nat.le_trans (Nat.add_le_add_left hd _) (htakes a rest hr)⟩

/-- Where fewer tokens are left. -/
theorem Agree.shorter (h : Agree k d p q) (hk : k' ≤ k) : Agree k' d p q :=
  h.mono hk (Nat.le_refl d)

/-- Whether a token is taken is forgotten. -/
theorem Agree.loose (h : Agree k d p q) : Agree k 0 p q := h.mono (Nat.le_refl k) (Nat.zero_le d)

theorem agree_zero : Agree 0 d p q := fun _ h => absurd h (Nat.not_lt_zero _)

/-- A parser agrees with itself if it takes enough tokens. -/
theorem agree_self
    (h : ∀ toks a rest, p toks = .ok (a, rest) → tokensLeft rest + d ≤ tokensLeft toks) :
    Agree k d p p :=
  fun toks _ => ⟨rfl, h toks⟩

theorem agree_pure (a : α) : Agree k 0 (pure a) (pure a) := by
  refine agree_self fun toks b rest hr => ?_
  obtain ⟨-, rfl⟩ := pure_apply_eq_ok.1 hr
  exact Nat.le_refl _

theorem agree_fail (fault : TokenKind → ParseFault) :
    Agree k d (fail fault : Parser α) (fail fault) :=
  agree_self fun _ _ _ hr => absurd hr fail_ne_ok

/-- One parser after another. Both take tokens. -/
theorem agree_bind_add {f g : α → Parser β} (hp : Agree k d p q)
    (hf : ∀ a, Agree (k - d) e (f a) (g a)) : Agree k (d + e) (p >>= f) (q >>= g) := by
  intro toks hlt
  obtain ⟨heq, htakes⟩ := hp toks hlt
  show (p toks >>= fun x => f x.1 x.2) = (q toks >>= fun x => g x.1 x.2) ∧
    ∀ b rest, (p toks >>= fun x => f x.1 x.2) = .ok (b, rest) → _
  rw [← heq]
  cases hr : p toks with
  | error err => exact ⟨rfl, nofun⟩
  | ok x =>
    obtain ⟨a, r⟩ := x
    have htaken := htakes a r hr
    obtain ⟨heq', htakes'⟩ := hf a r (by omega)
    refine ⟨heq', fun b rest hb => ?_⟩
    have := htakes' b rest hb
    omega

/-- The first parser takes the tokens that are asked for. -/
theorem agree_bind {f g : α → Parser β} (hp : Agree k d p q)
    (hf : ∀ a, Agree (k - d) 0 (f a) (g a)) : Agree k d (p >>= f) (q >>= g) :=
  agree_bind_add hp hf

/-- The second parser takes the tokens that are asked for. -/
theorem agree_bind_late {f g : α → Parser β} (hp : Agree k 0 p q)
    (hf : ∀ a, Agree k d (f a) (g a)) : Agree k d (p >>= f) (q >>= g) :=
  (agree_bind_add hp hf).mono (Nat.le_refl k) (Nat.le_add_left d 0)

theorem agree_bind_pure {f : α → β} (hp : Agree k d p q) :
    Agree k d (p >>= fun a => pure (f a)) (q >>= fun a => pure (f a)) :=
  agree_bind hp fun a => agree_pure (f a)

theorem agree_map {f : α → β} (hp : Agree k d p q) : Agree k d (f <$> p) (f <$> q) := by
  rw [map_eq_pure_bind, map_eq_pure_bind]
  exact agree_bind_pure hp

theorem agree_ite {b : Prop} [Decidable b] {p' q' : Parser α} (hp : Agree k d p q)
    (hq : Agree k d p' q') : Agree k d (if b then p else p') (if b then q else q') := by
  split
  · exact hp
  · exact hq

/-- What goes on behind the front token. -/
theorem Agree.tail (hp : Agree (k - 1) (d - 1) p q) (hlt : tokensLeft toks < k)
    (hfront : (front toks).kind ≠ .eof) :
    p toks.tail = q toks.tail ∧
      ∀ a rest, p toks.tail = .ok (a, rest) → tokensLeft rest + d ≤ tokensLeft toks := by
  have htail := tokensLeft_tail hfront
  obtain ⟨heq, htakes⟩ := hp toks.tail (by omega)
  refine ⟨heq, fun a rest hr => ?_⟩
  have := htakes a rest hr
  omega

/-! ## Looking at the front -/

/-- A parser that depends on the front token. -/
theorem agree_front {f g : Token → Parser α} (hf : ∀ t, Agree k d (f t) (g t)) :
    Agree k d (fun toks => f (front toks) toks) fun toks => g (front toks) toks :=
  fun toks => hf (front toks) toks

theorem agree_line {f g : Nat → Parser α} (hf : ∀ l, Agree k d (f l) (g l)) :
    Agree k d (line >>= f) (line >>= g) :=
  agree_front (f := fun t => f t.line) (g := fun t => g t.line) fun t => hf t.line

theorem agree_peek {f g : TokenKind → Parser α} (hf : ∀ t, Agree k d (f t) (g t)) :
    Agree k d (peek >>= f) (peek >>= g) :=
  agree_front (f := fun t => f t.kind) (g := fun t => g t.kind) fun t => hf t.kind

theorem agree_check {s : Symbol} {f g : Bool → Parser α} (hf : ∀ b, Agree k d (f b) (g b)) :
    Agree k d (check s >>= f) (check s >>= g) :=
  agree_front (f := fun t => f (t.kind.isSymbol s)) (g := fun t => g (t.kind.isSymbol s))
    fun t => hf (t.kind.isSymbol s)

/-! ## Taking a token -/

theorem agree_expect (s : Symbol) : Agree k 1 (expect s) (expect s) := by
  refine agree_self fun toks a rest hr => ?_
  obtain ⟨tok, rfl, hkind⟩ := expect_eq_ok.1 hr
  exact Nat.le_of_eq (tokensLeft_cons (by simp [hkind])).symm

theorem agree_expectIdent : Agree k 1 expectIdent expectIdent := by
  refine agree_self fun toks a rest hr => ?_
  obtain ⟨tok, rfl, hkind⟩ := expectIdent_eq_ok.1 hr
  exact Nat.le_of_eq (tokensLeft_cons (by simp [hkind])).symm

/-- A symbol that may be missing. -/
theorem agree_eat {s : Symbol} {f g : Bool → Parser α}
    (htrue : Agree (k - 1) (d - 1) (f true) (g true)) (hfalse : Agree k d (f false) (g false)) :
    Agree k d (eat s >>= f) (eat s >>= g) := by
  intro toks hlt
  cases hat : at? s toks with
  | true =>
    obtain ⟨tok, htoks, hkind⟩ := eq_cons_of_front (at?_iff.1 hat) nofun
    rw [bind_ok (htoks ▸ eat_cons hkind), bind_ok (htoks ▸ eat_cons hkind)]
    exact htrue.tail hlt (by simp [at?_iff.1 hat])
  | false =>
    rw [bind_ok (eat_of_not_at hat), bind_ok (eat_of_not_at hat)]
    exact hfalse toks hlt

/-- A symbol that may be missing, before what reads the same in both cases. -/
theorem agree_eat_any {s : Symbol} {f g : Bool → Parser α} (hf : ∀ b, Agree k d (f b) (g b)) :
    Agree k d (eat s >>= f) (eat s >>= g) :=
  agree_eat ((hf true).mono (Nat.sub_le k 1) (Nat.sub_le d 1)) (hf false)

/-! ## Parts that may be missing -/

theorem agree_unlessAt (s : Symbol) (hp : Agree k d p q) :
    Agree k 0 (unlessAt s p) (unlessAt s q) :=
  agree_check fun _ => agree_ite (agree_pure none) (agree_map hp).loose

theorem agree_behind (s : Symbol) (hp : Agree (k - 1) d p q) :
    Agree k 0 (behind s p) (behind s q) :=
  agree_eat (agree_map hp).loose (agree_pure none)

end Rules

/-! ## Bounds -/

/-- Two bounds that lists with fewer than `k` tokens left do not tell apart: a list without
tokens comes to neither, and each round takes a token. -/
inductive Enough : Nat → Nat → Nat → Prop
  | none (n m : Nat) : Enough 0 n m
  | same (k : Nat) : Enough k 0 0
  | succ {k n m : Nat} (h : Enough k n m) : Enough (k + 1) (n + 1) (m + 1)

theorem Enough.of_le (hn : k ≤ n) (hm : k ≤ m) : Enough k n m := by
  induction k generalizing n m with
  | zero => exact .none n m
  | succ k ih =>
    obtain ⟨n, rfl⟩ := Nat.exists_eq_add_one.2 (Nat.zero_lt_of_lt hn)
    obtain ⟨m, rfl⟩ := Nat.exists_eq_add_one.2 (Nat.zero_lt_of_lt hm)
    exact .succ (ih (Nat.le_of_succ_le_succ hn) (Nat.le_of_succ_le_succ hm))

theorem Enough.refl (k n : Nat) : Enough k n n := by
  induction n generalizing k with
  | zero => exact .same k
  | succ n ih =>
    cases k with
    | zero => exact .none _ _
    | succ k => exact .succ (ih k)

theorem Enough.mono (h : Enough k n m) (hk : k' ≤ k) : Enough k' n m := by
  induction h generalizing k' with
  | none n m =>
    obtain rfl := Nat.le_zero.1 hk
    exact .none n m
  | same k => exact .same k'
  | succ h ih =>
    cases k' with
    | zero => exact .none _ _
    | succ k' => exact .succ (ih (Nat.le_of_succ_le_succ hk))

end HeapScript.Parser
