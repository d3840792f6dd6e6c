import HeapScript.Proofs.Parser.Complete.Lookahead
import HeapScript.Proofs.Program.Printing

/-!
# Printed types, parameters and headers are read back

* `type_ok`, `param_ok`, `params_ok`, `returnType_ok`, `flags_ok` and
  `classDefinition_ok`, one for each parser that reads no statement and no expression.
* `functionRest_ok` and `ReadsFunction.literal` are for a function whose body is read.
* `Header`: the front of a printed declaration. The look-ahead takes it for a declaration
  and for nothing else, however long its type is.
-/

namespace HeapScript.Parser

variable {used rest : List Token}

/-! ## Types -/

@[simp] theorem typeName?_typeWord (name : String) : typeName? (typeWord name) = some name := by
  rw [typeWord]
  split
  · rename_i h
    rw [h]
    rfl
  split
  · rename_i h
    rw [h]
    rfl
  · rfl

/-- The word of a type is no symbol but `func` and `class`. -/
theorem typeWord_ne {name : String} {s : Symbol} (hs : typeName? (.symbol s) = none) :
    typeWord name ≠ .symbol s := by
  intro h
  rw [← h, typeName?_typeWord] at hs
  cases hs

/-- The pairs of brackets behind the first word of a type make it an array as often as
the type says. -/
theorem arraySuffixes_print {t : Ty} (h : used.map Token.kind = t.print) :
    ∃ tok u name, used = tok :: u ∧ tok.kind = typeWord name ∧
      ∀ r, arraySuffixes (.named name) (u ++ r) = arraySuffixes t r := by
  induction t generalizing used with
  | named name =>
    obtain ⟨tok, rfl, hkind⟩ := List.map_eq_singleton_iff.1 h
    exact ⟨tok, [], name, rfl, hkind, fun _ => rfl⟩
  | array element ih =>
    obtain ⟨v, w, rfl, hv, hw⟩ := List.map_eq_append_iff.1 h
    obtain ⟨a, _, rfl, ha, hw⟩ := List.map_eq_cons_iff.1 hw
    obtain ⟨b, rfl, hb⟩ := List.map_eq_singleton_iff.1 hw
    obtain ⟨tok, u, name, rfl, hkind, hu⟩ := ih hv
    refine ⟨tok, u ++ [a, b], name, rfl, hkind, fun r => ?_⟩
    rw [List.append_assoc, hu]
    simp [arraySuffixes, ha, hb, TokenKind.isSymbol]

theorem type_ok {t : Ty} (h : used.map Token.kind = t.print)
    (hrest : at? (delim .lbracket) rest = false) : type (used ++ rest) = .ok (t, rest) := by
  obtain ⟨tok, u, name, rfl, hkind, hu⟩ := arraySuffixes_print h
  simp [type, hkind, hu, arraySuffixes_of_quiet (.inl hrest)]

/-! ## Parameters -/

/-- A word that may be missing, where it does not stand behind itself. -/
theorem eat_printWord {k : Keyword} {there : Bool} (h : used.map Token.kind = printWord k there)
    (hrest : at? (kw k) rest = false) : eat (kw k) (used ++ rest) = .ok (there, rest) := by
  cases there with
  | true =>
    obtain ⟨tok, rfl, hkind⟩ := List.map_eq_singleton_iff.1 h
    exact eat_cons hkind
  | false =>
    obtain rfl := List.map_eq_nil_iff.1 h
    exact eat_of_not_at hrest

theorem type_not_at {t : Ty} {s : Symbol} (h : used.map Token.kind = t.print)
    (hs : typeName? (.symbol s) = none) (rest : List Token) : at? s (used ++ rest) = false := by
  obtain ⟨tok, u, name, rfl, hkind, -⟩ := arraySuffixes_print h
  exact not_at_cons hkind (typeWord_ne hs)

theorem param_ok {p : Param} (h : used.map Token.kind = p.print) :
    param (used ++ rest) = .ok (p, rest) := by
  obtain ⟨r, w, rfl, hr, hw⟩ := List.map_eq_append_iff.1 h
  obtain ⟨v, _, rfl, hv, hw⟩ := List.map_eq_append_iff.1 hw
  obtain ⟨tok, rfl, hkind⟩ := List.map_eq_singleton_iff.1 hw
  have htype : type (v ++ tok :: rest) = .ok (p.ty, tok :: rest) :=
    type_ok hv (not_at_cons hkind nofun)
  rw [List.append_assoc, List.append_assoc, param,
    bind_ok (eat_printWord hr (type_not_at hv rfl _)), List.singleton_append, bind_ok htype,
    bind_ok (expectIdent_cons hkind)]
  rfl

/-- A parameter starts with the word for a reference or with a type. -/
theorem param_not_at {p : Param} {d : Delimiter} (h : used.map Token.kind = p.print)
    (rest : List Token) : at? (delim d) (used ++ rest) = false := by
  obtain ⟨r, w, rfl, hr, hw⟩ := List.map_eq_append_iff.1 h
  obtain ⟨v, _, rfl, hv, -⟩ := List.map_eq_append_iff.1 hw
  rw [List.append_assoc]
  cases hp : p.isRef with
  | true =>
    rw [hp] at hr
    obtain ⟨word, _, rfl, hword, -⟩ := List.map_eq_cons_iff.1 hr
    exact not_at_cons hword nofun
  | false =>
    rw [hp] at hr
    obtain rfl := List.map_eq_nil_iff.1 hr
    rw [List.nil_append, List.append_assoc]
    exact type_not_at hv rfl _

theorem paramsRest_ok {p : Param} {ps : List Param} {close : Token} {n : Nat}
    (hclose : close.kind = .symbol (delim .rparen))
    (h : used.map Token.kind = p.print ++ printMoreParams ps) (hn : used.length ≤ n) :
    paramsRest n (used ++ close :: rest) = .ok (p :: ps, rest) := by
  induction ps generalizing p used n with
  | nil =>
    rw [printMoreParams, List.append_nil] at h
    have hpos : 0 < used.length := by
      rw [← List.length_map Token.kind, h, Param.print]
      simp only [List.length_append, List.length_singleton]
      omega
    obtain ⟨n, rfl⟩ : ∃ m, n = m + 1 := ⟨n - 1, by omega⟩
    rw [paramsRest, bind_ok (param_ok h), bind_ok (eat_cons hclose)]
    rfl
  | cons p' ps ih =>
    obtain ⟨u, v, rfl, hu, hv⟩ := List.map_eq_append_iff.1 h
    obtain ⟨comma, w, rfl, hcomma, hw⟩ := List.map_eq_cons_iff.1 hv
    rw [List.length_append, List.length_cons] at hn
    obtain ⟨n, rfl⟩ : ∃ m, n = m + 1 := ⟨n - 1, by omega⟩
    have hopen : at? (delim .rparen) (comma :: (w ++ close :: rest)) = false :=
      not_at_cons hcomma nofun
    rw [List.append_assoc, paramsRest, bind_ok (param_ok hu), List.cons_append,
      bind_ok (eat_of_not_at hopen)]
    simp only [Bool.false_eq_true, if_false]
    rw [bind_ok (expect_cons hcomma), bind_ok (ih hw (by omega))]
    rfl

theorem params_ok {ps : List Param} {close : Token} {n : Nat}
    (hclose : close.kind = .symbol (delim .rparen)) (h : used.map Token.kind = printParams ps)
    (hn : used.length ≤ n) : params n (used ++ close :: rest) = .ok (ps, rest) := by
  cases ps with
  | nil =>
    obtain rfl := List.map_eq_nil_iff.1 h
    rw [params, List.nil_append, bind_ok (eat_cons hclose)]
    rfl
  | cons p ps =>
    have hopen : at? (delim .rparen) (used ++ close :: rest) = false := by
      obtain ⟨u, v, rfl, hu, -⟩ := List.map_eq_append_iff.1 h
      rw [List.append_assoc]
      exact param_not_at hu _
    rw [params, bind_ok (eat_of_not_at hopen)]
    exact paramsRest_ok hclose h hn

/-! ## Classes -/

theorem members_ok {ps : List Param} {close : Token} {n : Nat}
    (hclose : close.kind = .symbol (delim .rbrace)) (h : used.map Token.kind = printMembers ps)
    (hn : used.length < n) : members n (used ++ close :: rest) = .ok (ps, rest) := by
  obtain ⟨n, rfl⟩ : ∃ m, n = m + 1 := ⟨n - 1, by omega⟩
  induction ps generalizing used n with
  | nil =>
    obtain rfl := List.map_eq_nil_iff.1 h
    rw [members, List.nil_append, bind_ok (eat_cons hclose)]
    rfl
  | cons p ps ih =>
    obtain ⟨u, v, rfl, hu, hv⟩ := List.map_eq_append_iff.1 h
    obtain ⟨semicolon, w, rfl, hsemicolon, hw⟩ := List.map_eq_cons_iff.1 hv
    rw [List.length_append, List.length_cons] at hn
    obtain ⟨n, rfl⟩ : ∃ m, n = m + 1 := ⟨n - 1, by omega⟩
    rw [List.append_assoc, members, bind_ok (eat_of_not_at (param_not_at hu _))]
    simp only [Bool.false_eq_true, if_false]
    rw [bind_ok (param_ok hu), List.cons_append, bind_ok (expect_cons hsemicolon),
      bind_ok (ih hw n (by omega))]
    rfl

theorem classDefinition_ok {c : ClassDef} {n : Nat}
    (h : used.map Token.kind = c.print ++ [.delimiter .semicolon]) (hn : used.length ≤ n + 1) :
    classDefinition n (used ++ rest) =
      .ok (.classDef { c with line := (front used).line } (front used).line, rest) := by
  simp only [ClassDef.print, List.cons_append, List.append_assoc] at h
  obtain ⟨word, _, rfl, hword, h⟩ := List.map_eq_cons_iff.1 h
  obtain ⟨name, _, rfl, hname, h⟩ := List.map_eq_cons_iff.1 h
  obtain ⟨opening, _, rfl, hopening, h⟩ := List.map_eq_cons_iff.1 h
  obtain ⟨u, _, rfl, hu, h⟩ := List.map_eq_append_iff.1 h
  obtain ⟨close, _, rfl, hclose, h⟩ := List.map_eq_cons_iff.1 h
  obtain ⟨semicolon, rfl, hsemicolon⟩ := List.map_eq_singleton_iff.1 h
  simp only [List.length_cons, List.length_append] at hn
  have hmembers : members n (u ++ close :: semicolon :: rest) =
      .ok (c.members, semicolon :: rest) := members_ok hclose hu (by omega)
  rw [List.cons_append, List.cons_append, List.cons_append, List.append_assoc, classDefinition,
    bind_line, bind_ok (expect_cons hword), bind_ok (expectIdent_cons hname),
    bind_ok (expect_cons hopening), List.cons_append, List.cons_append, List.nil_append,
    bind_ok hmembers, bind_ok (eat_cons hsemicolon)]
  rfl

/-! ## Functions -/

theorem returnType_ok {t : Ty} {returnsRef : Bool}
    (h : used.map Token.kind = printResult t returnsRef)
    (hrest : at? (delim .lbrace) rest = true) :
    returnType (used ++ rest) = .ok ((t, returnsRef), rest) := by
  have hfront := at?_iff.1 hrest
  have hnot {s : Symbol} (hs : s ≠ delim .lbrace) : at? s rest = false := by
    rw [at?, hfront]
    simpa [TokenKind.isSymbol] using hs.symm
  rw [printResult] at h
  split at h
  · rename_i hvar
    obtain ⟨rfl, rfl⟩ := hvar
    obtain rfl := List.map_eq_nil_iff.1 h
    rw [List.nil_append, returnType, bind_ok (eat_of_not_at (s := delim .arrow) (hnot (by decide)))]
    rfl
  · obtain ⟨arrow, _, rfl, harrow, h⟩ := List.map_eq_cons_iff.1 h
    obtain ⟨r, v, rfl, hr, hv⟩ := List.map_eq_append_iff.1 h
    rw [List.cons_append, List.append_assoc, returnType, bind_ok (eat_cons harrow)]
    simp only [if_true]
    rw [bind_ok (eat_printWord hr (type_not_at hv rfl _)), bind_ok (type_ok hv (hnot (by decide)))]
    rfl

/-- A function is read if its body is. -/
theorem functionRest_ok {G : Grammar} {n l : Nat} {d : FunctionDef} {body : Stmt}
    {opening close : Token} {ps result block : List Token}
    (hopening : opening.kind = .symbol (delim .lparen))
    (hps : ps.map Token.kind = printParams d.params)
    (hclose : close.kind = .symbol (delim .rparen))
    (hresult : result.map Token.kind = printResult d.returnType d.returnsRef)
    (hblock : at? (delim .lbrace) (block ++ rest) = true)
    (hbody : G.stmt (block ++ rest) = .ok (body, rest)) (hn : ps.length ≤ n) :
    functionRest G n d.captures l (opening :: (ps ++ close :: (result ++ (block ++ rest)))) =
      .ok ({ d with body, line := l }, rest) := by
  rw [functionRest, bind_ok (expect_cons hopening), bind_ok (params_ok hclose hps hn),
    bind_ok (returnType_ok hresult hblock)]
  show (check (delim .lbrace) >>= _) (block ++ rest) = _
  rw [bind_ok (check_eq_ok.2 ⟨hblock.symm, rfl⟩)]
  exact bind_ok hbody

/-- The tokens behind `func` and, in a definition, the name are read as the function. -/
structure ReadsFunction (g : Nat → Grammar) (d : FunctionDef) (used : List Token) : Prop where
  opens : at? (delim .lparen) used = true
  function : ∀ k, used.length ≤ k → ∀ rest,
    functionRest (g k) k d.captures d.line (used ++ rest) = .ok (d, rest)

theorem ReadsFunction.literal {g : Nat → Grammar} {d : FunctionDef} (h : ReadsFunction g d used)
    {cs : List Token} {func : Token} (hcs : cs.map Token.kind = printWord .closure d.captures)
    (hfunc : func.kind = .symbol (kw .func)) (hline : d.line = (front (cs ++ [func])).line) :
    Literal g d (cs ++ func :: used) := by
  intro k hk rest
  rw [List.length_append, List.length_cons] at hk
  have hfront : (front (cs ++ func :: (used ++ rest))).line = d.line := by
    rw [hline]
    cases cs <;> rfl
  have hclosure : at? (kw .closure) (func :: (used ++ rest)) = false := not_at_cons hfunc nofun
  rw [List.append_assoc, List.cons_append, functionLiteral, bind_line,
    bind_ok (eat_printWord hcs hclosure), bind_ok (expect_cons hfunc), hfront]
  exact h.function k (by omega) rest

/-! ## Declarations -/

theorem flags_printWord {k : Keyword} {set : DeclFlags → DeclFlags} {there : Bool}
    (hk : flag? (.word k) = some set) (h : used.map Token.kind = printWord k there)
    (f : DeclFlags) : flags f (used ++ rest) = flags (if there then set f else f) rest := by
  cases there with
  | true =>
    obtain ⟨tok, rfl, hkind⟩ := List.map_eq_singleton_iff.1 h
    simp [flags, hkind, hk]
  | false =>
    obtain rfl := List.map_eq_nil_iff.1 h
    rfl

theorem flags_ok {f : DeclFlags} (h : used.map Token.kind = f.print)
    (hrest : flag? (front rest).kind = none) : flags {} (used ++ rest) = (f, rest) := by
  obtain ⟨u, _, rfl, hu, h⟩ := List.map_eq_append_iff.1 h
  obtain ⟨v, w, rfl, hv, hw⟩ := List.map_eq_append_iff.1 h
  have hstop (f : DeclFlags) : flags f rest = (f, rest) := by
    cases rest with
    | nil => rfl
    | cons tok r =>
      rw [front_cons] at hrest
      rw [flags, hrest]
  rw [List.append_assoc, List.append_assoc, flags_printWord rfl hu, flags_printWord rfl hv,
    flags_printWord rfl hw, hstop]
  obtain ⟨isConst, isAlloc, isRef⟩ := f
  cases isConst <;> cases isAlloc <;> cases isRef <;> rfl

theorem flag?_type {t : Ty} (h : used.map Token.kind = t.print) (rest : List Token) :
    flag? (front (used ++ rest)).kind = none := by
  obtain ⟨tok, u, name, rfl, hkind, -⟩ := arraySuffixes_print h
  rw [List.cons_append, front_cons, flag?.eq_def]
  split
  case h_4 => rfl
  all_goals
    rename_i heq
    exact absurd (hkind.symm.trans heq) (typeWord_ne rfl)

/-- The front of a printed type: a word alone, or a word and a bracket. -/
theorem type_cases {t : Ty} (h : used.map Token.kind = t.print) :
    (∃ tok name, used = [tok] ∧ tok.kind = typeWord name) ∨
      ∃ tok bracket r name, used = tok :: bracket :: r ∧ tok.kind = typeWord name ∧
        bracket.kind = .symbol (delim .lbracket) := by
  induction t generalizing used with
  | named name =>
    obtain ⟨tok, rfl, hkind⟩ := List.map_eq_singleton_iff.1 h
    exact .inl ⟨tok, name, rfl, hkind⟩
  | array element ih =>
    obtain ⟨v, w, rfl, hv, hw⟩ := List.map_eq_append_iff.1 h
    obtain ⟨a, _, rfl, ha, -⟩ := List.map_eq_cons_iff.1 hw
    rcases ih hv with ⟨tok, name, rfl, hkind⟩ | ⟨tok, bracket, r, name, rfl, hkind, hbracket⟩
    · exact .inr ⟨tok, a, _, name, rfl, hkind, ha⟩
    · exact .inr ⟨tok, bracket, _, name, rfl, hkind, hbracket⟩

/-- The front of printed flags: nothing, or a flag. -/
theorem flags_cases {f : DeclFlags} (h : used.map Token.kind = f.print) :
    used = [] ∨ ∃ tok r, used = tok :: r ∧ (flag? tok.kind).isSome = true := by
  have hword {k : Keyword} {there : Bool} {u : List Token} (hk : (flag? (.word k)).isSome = true)
      (hu : u.map Token.kind = printWord k there) :
      u = [] ∨ ∃ tok r, u = tok :: r ∧ (flag? tok.kind).isSome = true := by
    cases there with
    | true =>
      obtain ⟨tok, r, rfl, hkind, -⟩ := List.map_eq_cons_iff.1 hu
      exact .inr ⟨tok, r, rfl, hkind ▸ hk⟩
    | false => exact .inl (List.map_eq_nil_iff.1 hu)
  obtain ⟨u, _, rfl, hu, h⟩ := List.map_eq_append_iff.1 h
  obtain ⟨v, w, rfl, hv, hw⟩ := List.map_eq_append_iff.1 h
  rcases hword rfl hu with rfl | ⟨tok, r, rfl, hflag⟩
  · rcases hword rfl hv with rfl | ⟨tok, r, rfl, hflag⟩
    · exact hword rfl hw
    · exact .inr ⟨tok, _, rfl, hflag⟩
  · exact .inr ⟨tok, _, rfl, hflag⟩

theorem ne_of_flag {k : TokenKind} {s : Symbol} (hk : (flag? k).isSome = true)
    (hs : flag? (.symbol s) = none) : k ≠ .symbol s := by
  rintro rfl
  rw [hs] at hk
  cases hk

/-- How a printed declaration begins. A type alone is followed by the name and by
neither a parenthesis nor a brace. -/
inductive Header : List Token → Prop
  | flag {tok : Token} {toks : List Token} : (flag? tok.kind).isSome = true → Header (tok :: toks)
  | array {tok bracket : Token} {toks : List Token} {name : String} : tok.kind = typeWord name →
    bracket.kind = .symbol (delim .lbracket) →
    isIdent (front (arraySuffixes (.named name) (bracket :: toks)).2).kind = true →
    Header (tok :: bracket :: toks)
  | named {tok ident : Token} {toks : List Token} {name x : String} : tok.kind = typeWord name →
    ident.kind = .ident x → at? (delim .lparen) toks = false → at? (delim .lbrace) toks = false →
    Header (tok :: ident :: toks)

theorem header {f : DeclFlags} {t : Ty} {x : String} {fs ty : List Token} {ident : Token}
    (hfs : fs.map Token.kind = f.print) (hty : ty.map Token.kind = t.print)
    (hident : ident.kind = .ident x) (hparen : at? (delim .lparen) rest = false)
    (hbrace : at? (delim .lbrace) rest = false) : Header (fs ++ (ty ++ ident :: rest)) := by
  rcases flags_cases hfs with rfl | ⟨tok, r, rfl, hflag⟩
  · rcases type_cases hty with
      ⟨tok, name, rfl, hkind⟩ | ⟨tok, bracket, r, name, rfl, hkind, hbracket⟩
    · exact .named hkind hident hparen hbrace
    · rw [List.nil_append, List.cons_append, List.cons_append]
      refine .array hkind hbracket ?_
      obtain ⟨tok', u, name', heq, hkind', hu⟩ := arraySuffixes_print hty
      cases heq
      have hname : name = name' := by
        have heq : typeName? (typeWord name) = typeName? (typeWord name') := by rw [← hkind, hkind']
        simpa using heq
      have hsuffix := hu (ident :: rest)
      rw [arraySuffixes_of_quiet (.inl (not_at_cons hident nofun)), ← hname] at hsuffix
      rw [List.cons_append] at hsuffix
      rw [hsuffix, front_cons, hident]
      rfl
  · exact .flag hflag

section Header

variable {toks : List Token} (h : Header toks)

include h

theorem atDeclaration_of_header : atDeclaration toks = true := by
  rw [atDeclaration, Bool.or_eq_true]
  cases h with
  | flag hflag => exact .inl hflag
  | array hkind _ hident =>
    right
    simpa only [front_cons, hkind, typeName?_typeWord, List.tail_cons] using hident
  | @named _ ident r name x hkind hident _ _ =>
    right
    have hquiet : at? (delim .lbracket) (ident :: r) = false := not_at_cons hident (by rintro ⟨⟩)
    simp only [front_cons, hkind, typeName?_typeWord, List.tail_cons,
      arraySuffixes_of_quiet (.inl hquiet), hident, isIdent]

theorem atFunctionDefinition_of_header : atFunctionDefinition toks = false := by
  have hclosure : at? (kw .closure) toks = false := by
    cases h with
    | flag hflag => exact not_at_cons rfl (ne_of_flag hflag rfl)
    | array hkind _ _ => exact not_at_cons hkind (typeWord_ne rfl)
    | named hkind _ _ _ => exact not_at_cons hkind (typeWord_ne rfl)
  simp only [atFunctionDefinition, hclosure, Bool.false_eq_true, if_false, Bool.and_eq_false_iff]
  cases h with
  | flag hflag => exact .inl (.inl (not_at_cons rfl (ne_of_flag hflag rfl)))
  | array _ hbracket _ => exact .inl (.inr (by simp [kindAt, hbracket, isIdent]))
  | named _ _ hparen _ => exact .inr hparen

theorem atClassDefinition_of_header : atClassDefinition toks = false := by
  simp only [atClassDefinition, Bool.and_eq_false_iff]
  cases h with
  | flag hflag => exact .inl (.inl (not_at_cons rfl (ne_of_flag hflag rfl)))
  | array _ hbracket _ => exact .inl (.inr (by simp [kindAt, hbracket, isIdent]))
  | named _ _ _ hbrace => exact .inr hbrace

end Header

end HeapScript.Parser
