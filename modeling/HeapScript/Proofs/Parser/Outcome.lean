import HeapScript.Parser.Statement
import HeapScript.Proofs.Fault.Outcome

/-!
# Outcomes of parsers

When a sequence of parsers succeeds, and which tokens each step takes.

* `Parser.bind_apply_eq_ok` is the one for sequences, `expect_eq_ok`, `eat_eq_ok` and
  `expectIdent_eq_ok` are those for the steps that take a token.
* `Parser.bind_ok` and the lemmas after it run a parse whose parts are known.
-/

namespace HeapScript

theorem TokenKind.isSymbol_iff {s : Symbol} {k : TokenKind} :
    k.isSymbol s = true ↔ k = .symbol s := by
  cases k <;> simp [isSymbol]

namespace Parser

variable {α β : Type} {toks rest : List Token}

@[simp] theorem front_cons (tok : Token) (r : List Token) : front (tok :: r) = tok := rfl

theorem eq_cons_of_front {k : TokenKind} (h : (front toks).kind = k) (hk : k ≠ .eof) :
    ∃ tok, toks = tok :: toks.tail ∧ tok.kind = k := by
  cases toks with
  | nil => exact absurd h.symm hk
  | cons tok r => exact ⟨tok, rfl, h⟩

theorem at?_iff {s : Symbol} : at? s toks = true ↔ (front toks).kind = .symbol s :=
  TokenKind.isSymbol_iff

/-- A test on which the front token and a symbol differ tells them apart. -/
theorem not_at_of_test (P : TokenKind → Bool) {b : Bool} {s : Symbol}
    (h : P (front toks).kind = b) (hs : P (.symbol s) = !b) : at? s toks = false := by
  rw [Bool.eq_false_iff]
  intro hat
  rw [at?_iff.1 hat, hs] at h
  cases b <;> cases h

theorem not_at_cons {s : Symbol} {k : TokenKind} {tok : Token} (h : tok.kind = k)
    (hs : k ≠ .symbol s) : at? s (tok :: rest) = false := by
  rw [Bool.eq_false_iff]
  intro hat
  exact hs (h.symm.trans (at?_iff.1 hat))

theorem bind_apply_eq_ok {p : Parser α} {f : α → Parser β} {b : β} :
    (p >>= f) toks = .ok (b, rest) ↔ ∃ a r, p toks = .ok (a, r) ∧ f a r = .ok (b, rest) := by
  show (p toks >>= fun x => f x.1 x.2) = .ok (b, rest) ↔ _
  simp only [bind_eq_ok, Prod.exists]

theorem pure_apply_eq_ok {a b : α} :
    (pure a : Parser α) toks = .ok (b, rest) ↔ a = b ∧ toks = rest := by
  show Except.ok (a, toks) = .ok (b, rest) ↔ _
  simp

theorem map_apply_eq_ok {p : Parser α} {f : α → β} {b : β} :
    (f <$> p) toks = .ok (b, rest) ↔ ∃ a, p toks = .ok (a, rest) ∧ f a = b := by
  rw [map_eq_pure_bind, bind_apply_eq_ok]
  simp only [pure_apply_eq_ok]
  constructor
  · rintro ⟨a, r, h, hb, rfl⟩
    exact ⟨a, h, hb⟩
  · rintro ⟨a, h, hb⟩
    exact ⟨a, rest, h, hb, rfl⟩

theorem fail_ne_ok {fault : TokenKind → ParseFault} {a : α} :
    (fail fault : Parser α) toks ≠ .ok (a, rest) := nofun

theorem line_eq_ok {l : Nat} :
    line toks = .ok (l, rest) ↔ l = (front toks).line ∧ rest = toks := by
  rw [line, Except.ok.injEq, Prod.mk.injEq, eq_comm, eq_comm (a := toks)]

theorem peek_eq_ok {k : TokenKind} :
    peek toks = .ok (k, rest) ↔ k = (front toks).kind ∧ rest = toks := by
  rw [peek, Except.ok.injEq, Prod.mk.injEq, eq_comm, eq_comm (a := toks)]

theorem check_eq_ok {s : Symbol} {b : Bool} :
    check s toks = .ok (b, rest) ↔ b = at? s toks ∧ rest = toks := by
  rw [check, Except.ok.injEq, Prod.mk.injEq, eq_comm, eq_comm (a := toks)]

theorem expect_eq_ok {s : Symbol} {u : Unit} :
    expect s toks = .ok (u, rest) ↔ ∃ tok, toks = tok :: rest ∧ tok.kind = .symbol s := by
  rw [expect]
  split
  · rename_i h
    obtain ⟨tok, htoks, hkind⟩ := eq_cons_of_front (at?_iff.1 h) nofun
    constructor
    · rintro ⟨⟩
      exact ⟨tok, htoks, hkind⟩
    · rintro ⟨_, rfl, -⟩
      rfl
  · rename_i h
    refine ⟨nofun, ?_⟩
    rintro ⟨tok, rfl, hkind⟩
    exact absurd (at?_iff.2 (by exact hkind)) h

theorem eat_eq_ok {s : Symbol} {b : Bool} :
    eat s toks = .ok (b, rest) ↔
      (b = true ∧ ∃ tok, toks = tok :: rest ∧ tok.kind = .symbol s) ∨
        b = false ∧ at? s toks = false ∧ rest = toks := by
  rw [eat]
  split
  · rename_i h
    obtain ⟨tok, htoks, hkind⟩ := eq_cons_of_front (at?_iff.1 h) nofun
    constructor
    · rintro ⟨⟩
      exact .inl ⟨rfl, tok, htoks, hkind⟩
    · rintro (⟨rfl, _, rfl, -⟩ | ⟨-, h', -⟩)
      · rfl
      · rw [h] at h'
        cases h'
  · rename_i h
    constructor
    · rintro ⟨⟩
      exact .inr ⟨rfl, by simpa using h, rfl⟩
    · rintro (⟨rfl, tok, rfl, hkind⟩ | ⟨rfl, -, rfl⟩)
      · exact absurd (at?_iff.2 (by exact hkind)) h
      · rfl

theorem expectIdent_eq_ok {name : String} :
    expectIdent toks = .ok (name, rest) ↔ ∃ tok, toks = tok :: rest ∧ tok.kind = .ident name := by
  rw [expectIdent]
  split
  · rename_i found h
    obtain ⟨tok, htoks, hkind⟩ := eq_cons_of_front h nofun
    constructor
    · rintro ⟨⟩
      exact ⟨tok, htoks, hkind⟩
    · rintro ⟨_, rfl, hname⟩
      cases h.symm.trans hname
      rfl
  · rename_i h
    refine ⟨nofun, ?_⟩
    rintro ⟨tok, rfl, hkind⟩
    exact absurd hkind (h name)

/-! ## Putting a parse together -/

theorem bind_ok {p : Parser α} {f : α → Parser β} {a : α} (h : p toks = .ok (a, rest)) :
    (p >>= f) toks = f a rest := by
  show (p toks >>= fun x => f x.1 x.2) = f a rest
  rw [h]
  rfl

theorem bind_line {f : Nat → Parser β} : (line >>= f) toks = f (front toks).line toks :=
  rfl

theorem bind_peek {f : TokenKind → Parser β} : (peek >>= f) toks = f (front toks).kind toks :=
  rfl

theorem map_ok {p : Parser α} {f : α → β} {a : α} (h : p toks = .ok (a, rest)) :
    (f <$> p) toks = .ok (f a, rest) :=
  map_apply_eq_ok.2 ⟨a, h, rfl⟩

theorem expect_cons {s : Symbol} {tok : Token} (h : tok.kind = .symbol s) :
    expect s (tok :: rest) = .ok ((), rest) :=
  expect_eq_ok.2 ⟨tok, rfl, h⟩

theorem expectIdent_cons {name : String} {tok : Token} (h : tok.kind = .ident name) :
    expectIdent (tok :: rest) = .ok (name, rest) :=
  expectIdent_eq_ok.2 ⟨tok, rfl, h⟩

theorem eat_cons {s : Symbol} {tok : Token} (h : tok.kind = .symbol s) :
    eat s (tok :: rest) = .ok (true, rest) :=
  eat_eq_ok.2 (.inl ⟨rfl, tok, rfl, h⟩)

theorem eat_of_not_at {s : Symbol} (h : at? s toks = false) : eat s toks = .ok (false, toks) :=
  eat_eq_ok.2 (.inr ⟨rfl, h, rfl⟩)

/-- The part is read where it is not missing. -/
theorem eq_ok_of_unlessAt {s : Symbol} {p : Parser α} {o : Option α}
    (h : unlessAt s p toks = .ok (o, rest)) : ∀ a ∈ o, p toks = .ok (a, rest) := by
  rintro a rfl
  obtain ⟨missing, r, hcheck, h⟩ := bind_apply_eq_ok.1 h
  obtain ⟨-, rfl⟩ := check_eq_ok.1 hcheck
  cases missing with
  | true => cases (pure_apply_eq_ok.1 h).1
  | false =>
    obtain ⟨a', ha, h⟩ := map_apply_eq_ok.1 h
    exact Option.some.inj h ▸ ha

theorem unlessAt_none {s : Symbol} {p : Parser α} (h : at? s toks = true) :
    unlessAt s p toks = .ok (none, toks) := by
  rw [unlessAt, bind_ok (check_eq_ok.2 ⟨h.symm, rfl⟩)]
  rfl

theorem unlessAt_some {s : Symbol} {p : Parser α} {a : α} (h : at? s toks = false)
    (hp : p toks = .ok (a, rest)) : unlessAt s p toks = .ok (some a, rest) := by
  rw [unlessAt, bind_ok (check_eq_ok.2 ⟨h.symm, rfl⟩)]
  exact map_ok hp

theorem behind_some {s : Symbol} {p : Parser α} {a : α} {tok : Token} (h : tok.kind = .symbol s)
    (hp : p toks = .ok (a, rest)) : behind s p (tok :: toks) = .ok (some a, rest) := by
  rw [behind, bind_ok (eat_cons h)]
  exact map_ok hp

theorem behind_none {s : Symbol} {p : Parser α} (h : at? s toks = false) :
    behind s p toks = .ok (none, toks) := by
  rw [behind, bind_ok (eat_of_not_at h)]
  rfl

end Parser

end HeapScript
