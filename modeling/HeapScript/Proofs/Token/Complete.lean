import HeapScript.Proofs.Token.Literal

/-!
# Every layout is found

The converse of what a layout says of a text that the lexer reads: where tokens lie in a
text with gaps around them, each the longest one at its place, the lexer finds them.

* `Ink` holds of the characters that are no gap. Only string literals hold others.
* `lexeme_of_longest`: the longest match at a place is taken, if it is a token.
* `lexFrom_eq_ok_iff`: a text is read as tokens if and only if these are laid out in it.
-/

namespace HeapScript

namespace Lexer

variable {line : Nat} {kind : TokenKind} {c : Char} {u w r t rest cs : List Char}
  {ts : List Token}

/-! ## Characters outside gaps -/

/-- Neither a blank nor a line break. -/
def Ink (c : Char) : Prop :=
  ¬Blank c ∧ c ≠ '\n'

instance (c : Char) : Decidable (Ink c) := inferInstanceAs (Decidable (_ ∧ _))

theorem ink_iff : Ink c ↔ c ∉ [' ', '\t', '\r', '\x0c', '\n'] := by
  simp [Ink, Blank, and_assoc]

theorem Letter.ink (h : Letter c) : Ink c := by
  rw [ink_iff]
  rintro hc
  fin_cases hc <;> exact absurd h (by decide)

theorem Digit.ink (h : Digit c) : Ink c := by
  rw [ink_iff]
  rintro hc
  fin_cases hc <;> exact absurd h (by decide)

theorem NumberText.ink (h : NumberText t) : ∀ d ∈ t, Ink d := by
  cases h with
  | whole h => exact fun d hd => (h.2 d hd).ink
  | point h h' =>
    intro d hd
    rcases List.mem_append.1 hd with hd | hd
    · exact (h.2 d hd).ink
    · rcases List.mem_cons.1 hd with rfl | hd
      · decide
      · exact (h'.2 d hd).ink

/-- A token that is no string literal holds no gap. -/
theorem Starts.ink (h : Starts c u) (hquote : c ≠ '"') : ∀ d ∈ c :: u, Ink d := by
  cases h with
  | name hc hname =>
    rintro d (_ | ⟨_, hd⟩)
    · exact hc.ink
    · exact (hname.2 d hd).elim Letter.ink Digit.ink
  | number _ hnumber => exact hnumber.ink
  | string _ hc _ _ => exact absurd hc hquote
  | symbol s _ _ _ hs hspelling =>
    have hall : ∀ s ∈ Symbol.punctuation, s.spelling.toList.all (decide <| Ink ·) := by decide
    simpa [hspelling] using hall s hs

theorem Starts.ink_head (h : Starts c u) : Ink c := by
  by_cases hquote : c = '"'
  · exact hquote ▸ by decide
  · exact h.ink hquote c List.mem_cons_self

theorem Prescribed.starts (h : Prescribed (c :: u) kind) : Starts c u := by
  generalize ht : c :: u = t at h
  cases h with
  | symbol s => exact starts_symbol ht.symm
  | number h => exact .number (ht ▸ h).digit (ht ▸ h)
  | string h _ =>
    obtain ⟨rfl, rfl⟩ := List.cons.inj ht
    exact .string _ rfl h rfl
  | name h _ =>
    subst ht
    exact .name h.1 h

theorem Prescribed.eq_cons (h : Prescribed t kind) : ∃ c u, t = c :: u ∧ Starts c u := by
  obtain ⟨c, u, rfl⟩ := List.exists_cons_of_ne_nil h.matched.ne_nil
  exact ⟨c, u, rfl, h.starts⟩

/-! ## Where a token starts -/

theorem not_starts_comment : ¬Starts '/' ('/' :: u) := by
  intro h
  cases h with
  | name h _ => exact absurd h (by decide)
  | number h _ => exact absurd h (by decide)
  | string _ h _ _ => exact absurd h (by decide)
  | symbol s _ _ _ hs hspelling =>
    have hall : ∀ s ∈ Symbol.punctuation, ¬['/', '/'] <+: s.spelling.toList := by decide
    exact hall s hs (hspelling ▸ List.prefix_append ['/', '/'] u)

/-- A text starts with a token if that does not extend to a comment. -/
theorem Prescribed.atToken (h : Prescribed t kind)
    (hcomment : ['/', '/'] <+: t ++ rest → 2 ≤ t.length) : AtToken (t ++ rest) := by
  obtain ⟨c, u, rfl, hstarts⟩ := h.eq_cons
  have hink := hstarts.ink_head
  rintro g hg hfront
  cases hg with
  | blank hne hblank =>
    obtain _ | ⟨d, g⟩ := g
    · exact hne rfl
    · obtain ⟨rfl, -⟩ := List.cons_prefix_cons.1 hfront
      exact hink.1 (hblank d List.mem_cons_self)
  | newline =>
    obtain ⟨rfl, -⟩ := List.cons_prefix_cons.1 hfront
    exact hink.2 rfl
  | @comment body _ =>
    have hslashes := (List.prefix_append ['/', '/'] body).trans hfront
    have hwithin : ['/', '/'] <+: c :: u :=
      List.prefix_of_prefix_length_le hslashes (List.prefix_append _ rest) (hcomment hslashes)
    obtain ⟨v, hv⟩ := hwithin
    obtain ⟨rfl, rfl⟩ := List.cons.inj hv
    exact not_starts_comment hstarts

theorem Longest.atToken (hlongest : Longest (t ++ rest) t) (h : Prescribed t kind) :
    AtToken (t ++ rest) :=
  h.atToken fun hfront => hlongest.maximal _ (.trivia (.comment List.not_mem_nil)) hfront

theorem AtToken.not_newline (h : AtToken (c :: r)) : c ≠ '\n' := by
  rintro rfl
  exact h _ .newline (List.prefix_append ['\n'] r)

theorem AtToken.not_gap (h : AtToken (c :: r)) : ¬isGap c := by
  intro hgap
  refine h [c] (.blank (List.cons_ne_nil c []) ?_) (List.prefix_append [c] r)
  simpa using isGap_iff.1 hgap

theorem AtToken.not_comment (h : AtToken (c :: r)) : ¬(c = '/' ∧ r.head? = some '/') := by
  rintro ⟨rfl, hr⟩
  obtain ⟨r, rfl⟩ := List.head?_eq_some_iff.1 hr
  exact h _ (.comment List.not_mem_nil) (List.prefix_append ['/', '/'] r)

/-! ## The longest match is taken -/

theorem lexeme_letter (hc : Letter c) : lexeme c r =
    .ok ⟨word (c :: r.takeWhile isNameRest), c :: r.takeWhile isNameRest,
      r.dropWhile isNameRest⟩ := by
  rw [lexeme, if_pos (isNameStart_iff.2 hc)]

theorem lexeme_digit (hc : Digit c) : lexeme c r =
    .ok ⟨.num (Literal.numberValue (numberText (c :: r)).1), (numberText (c :: r)).1,
      (numberText (c :: r)).2⟩ := by
  rw [lexeme, if_neg (isNameStart_iff.not.2 hc.not_letter), if_pos (isDigit_iff.2 hc)]

theorem lexeme_symbol {s s' : Symbol} {text : List Char} (hs : s ∈ Symbol.punctuation)
    (hspelling : s.spelling.toList = c :: u) (hs' : symbol? (c :: r) = some (s', text, rest)) :
    lexeme c r = .ok ⟨.symbol s', text, rest⟩ := by
  obtain ⟨hletter, hdigit, hquote⟩ := punctuation_head hs hspelling
  rw [lexeme, if_neg (isNameStart_iff.not.2 hletter), if_neg (isDigit_iff.not.2 hdigit),
    if_neg hquote, hs']

theorem word_keyword (k : Keyword) :
    word (Symbol.keyword k).spelling.toList = .symbol (.keyword k) := by
  cases k <;> rfl

theorem word_of_ne (h : ∀ k : Keyword, k.spelling.toList ≠ t) :
    word t = .ident (String.ofList t) := by
  have hnone : Keyword.ofSpelling? (String.ofList t) = none := by
    refine List.find?_eq_none.2 fun k _ hk => h k ?_
    rw [eq_of_beq hk, String.toList_ofList]
  simp only [word, hnone]

/-- A symbol is found where one of its length starts, or a longer one. -/
theorem exists_symbol? {s : Symbol} (hs : s ∈ Symbol.punctuation)
    (hfront : s.spelling.toList <+: c :: r) :
    ∃ s' text rest, symbol? (c :: r) = some (s', text, rest) := by
  have hof : Symbol.ofSpelling? s.spelling.toList = some s :=
    Symbol.ofSpelling?_eq_some.2 ⟨hs, rfl⟩
  rw [List.prefix_iff_eq_take.1 hfront] at hof
  obtain _ | ⟨d, r⟩ := r
  · have hone : Symbol.ofSpelling? [c] = some s := by
      rcases Symbol.length_punctuation hs with hlength | hlength <;> rwa [hlength] at hof
    exact ⟨s, [c], [], by rw [symbol?, hone]; rfl⟩
  · cases htwo : Symbol.ofSpelling? [c, d] with
    | some s' => exact ⟨s', [c, d], r, by simp only [symbol?, htwo]⟩
    | none =>
      have hone : Symbol.ofSpelling? [c] = some s := by
        rcases Symbol.length_punctuation hs with hlength | hlength
        · rwa [hlength] at hof
        · rw [hlength] at hof
          exact absurd (htwo.symm.trans hof) nofun
      exact ⟨s, [c], d :: r, by simp only [symbol?, htwo, hone]; rfl⟩

/-- Whatever token the lexer takes has the text of the longest match. -/
theorem Longest.text_eq (hlongest : Longest (c :: (u ++ rest)) (c :: u))
    (h : Prescribed (c :: u) kind) {l : Lexeme} (hl : lexeme c (u ++ rest) = .ok l) :
    l.text = c :: u ∧ l.rest = rest := by
  have hl' := longest_of_lexeme hl (Longest.atToken hlongest h)
  refine List.append_inj (lexeme_append hl) (Nat.le_antisymm ?_ ?_)
  · exact hlongest.maximal _ hl'.matched hl'.front
  · exact hl'.maximal _ hlongest.matched hlongest.front

/-- The longest match at the front is taken if it is a token. -/
theorem lexeme_of_longest (h : Prescribed (c :: u) kind)
    (hlongest : Longest (c :: (u ++ rest)) (c :: u)) :
    lexeme c (u ++ rest) = .ok ⟨kind, c :: u, rest⟩ := by
  have htext {l : Lexeme} (hl : lexeme c (u ++ rest) = .ok l) := hlongest.text_eq h hl
  have hword (hname : NameText (c :: u)) :
      lexeme c (u ++ rest) = .ok ⟨word (c :: u), c :: u, rest⟩ := by
    have hl := lexeme_letter (r := u ++ rest) hname.1
    obtain ⟨ht, hr⟩ := htext hl
    dsimp only at ht hr
    rw [hl, ht, hr]
  generalize ht : c :: u = t at h
  cases h with
  | symbol s =>
    rcases s.keyword_or_mem_punctuation with ⟨k, rfl⟩ | hs
    · have hname : NameText (c :: u) := ht ▸ nameText_keyword k
      rw [hword hname, ht, word_keyword]
    · obtain ⟨s', text, r, hs'⟩ := exists_symbol? (r := u ++ rest) hs (ht.symm ▸ hlongest.front)
      have hl : lexeme c (u ++ rest) = .ok ⟨.symbol s', text, r⟩ := lexeme_symbol hs ht.symm hs'
      obtain ⟨rfl, rfl⟩ := htext hl
      obtain ⟨hmem, hspelling, -⟩ := symbol?_eq_some hs'
      have hsame : some s' = some s := by
        rw [← Symbol.ofSpelling?_eq_some.2 ⟨hmem, hspelling⟩,
          ← Symbol.ofSpelling?_eq_some.2 ⟨hs, ht.symm⟩]
      cases hsame
      rw [hl, ht]
  | number h =>
    subst ht
    have hl := lexeme_digit (r := u ++ rest) h.digit
    obtain ⟨ht, hr⟩ := htext hl
    dsimp only at ht hr
    rw [hl, ht, hr]
  | @string body _ hbody hcook =>
    obtain ⟨rfl, hu⟩ := List.cons.inj ht
    have hr : u ++ rest = body ++ '"' :: rest := by rw [hu]; simp
    rw [hr]
    exact lexeme_of_cook hbody hcook rest
  | name hname hkeyword =>
    subst ht
    rw [hword hname, word_of_ne hkeyword]

/-! ## Whole texts -/

theorem skipLine_comment {body : List Char} (hbody : '\n' ∉ body)
    (hend : ∀ c ∈ rest.head?, c = '\n') : skipLine (body ++ rest) = rest := by
  have hall : ∀ c ∈ body, (c != '\n') = true := fun c hc => bne_iff_ne.2 fun h => hbody (h ▸ hc)
  rw [skipLine, List.dropWhile_append_of_pos hall]
  cases rest with
  | nil => rfl
  | cons d r =>
    rw [hend d rfl]
    rfl

/-- Gaps are skipped, and their line breaks counted. -/
theorem lexFrom_gap {g : List Char} (h : Gap rest g) :
    lexFrom line (g ++ rest) = lexFrom (line + g.count '\n') rest := by
  induction h generalizing line with
  | nil => rfl
  | @blank c g hc _ ih =>
    have hgap : isGap c := isGap_iff.2 hc
    have hnewline : c ≠ '\n' := by
      rintro rfl
      exact absurd hgap (by decide)
    rw [List.cons_append, lexFrom, if_neg hnewline, if_pos hgap, ih,
      List.count_cons_of_ne hnewline]
  | @newline g _ ih =>
    rw [List.cons_append, lexFrom, if_pos rfl, ih, List.count_cons_self, Nat.add_assoc,
      Nat.add_comm 1]
  | @comment body g hbody hend _ ih =>
    have hskip : skipLine ('/' :: (body ++ (g ++ rest))) = g ++ rest :=
      skipLine_comment (by simpa using hbody) hend
    have hcount : ('/' :: '/' :: body).count '\n' = 0 :=
      List.count_eq_zero.2 (by simpa using hbody)
    rw [List.append_assoc, List.cons_append, List.cons_append, lexFrom, if_neg (by decide),
      if_neg (by decide), if_pos ⟨rfl, rfl⟩, hskip, ih, List.count_append, hcount, Nat.zero_add]

theorem lexFrom_of_laid {pieces : List (List Char × Token)} {last : List Char}
    (h : Laid line pieces last) : lexFrom line (written pieces last) =
      .ok (pieces.map Prod.snd ++ [⟨.eof, "", line + (written pieces last).count '\n'⟩]) := by
  induction h with
  | @last line last hgap =>
    have hend : lexFrom line (last ++ []) = _ := lexFrom_gap hgap
    rw [List.append_nil] at hend
    rw [written, hend, lexFrom]
    rfl
  | @token line gap last t r hgap hlongest hkind hline _ ih =>
    obtain ⟨c, u, ht, -⟩ := hkind.eq_cons
    have hstart := hlongest.atToken hkind
    have hcount := List.count_eq_zero.2 hkind.newline_not_mem
    have htoken : (⟨t.kind, String.ofList (c :: u), line + gap.count '\n'⟩ : Token) = t := by
      rw [← ht, String.ofList_toList, ← hline]
    have hlines : line + (written ((gap, t) :: r) last).count '\n' =
        t.line + (written r last).count '\n' := by
      rw [written, List.count_append, List.count_append, hcount, hline, Nat.zero_add, Nat.add_assoc]
    rw [ht, List.cons_append] at hlongest hstart
    rw [ht] at hkind
    rw [hlines, written, lexFrom_gap hgap, ht, List.cons_append,
      lexFrom_token hstart.not_newline hstart.not_gap hstart.not_comment
        (lexeme_of_longest hkind hlongest), htoken, ← hline, ih]
    rfl

/-- The tokens of a text are those that are laid out in it. -/
theorem lexFrom_eq_ok_iff : lexFrom line cs = .ok ts ↔ Reads line cs ts := by
  refine ⟨lexFrom_reads, ?_⟩
  rintro ⟨pieces, last, hlaid, rfl, rfl⟩
  exact lexFrom_of_laid hlaid

end Lexer

end HeapScript
