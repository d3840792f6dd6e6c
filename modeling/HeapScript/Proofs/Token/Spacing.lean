import HeapScript.Proofs.Token.Complete

/-!
# Tokens further apart

A blank between two tokens changes neither of them, whatever stood there before.

* `Longest.before_gap`: a token is still the longest match at its place where a gap comes
  to stand behind it, or behind more of what follows it.
* `laid_apart`: tokens with one space in front of each are laid out, on one line.
  `Laid.insert`: a blank that is put in front of a gap changes no layout.
* `lex_spaced`: so the texts of the tokens of a source, joined by single spaces, are the
  same tokens, and a source with one more blank has the same tokens on the same lines.
-/

namespace HeapScript

/-- Whether the token is the end of the file. -/
def Token.isEnd (t : Token) : Bool :=
  t.kind matches .eof

/-- The token, if it stood on the first line. -/
def Token.onFirstLine (t : Token) : Token :=
  { t with line := 1 }

/-- The texts of the tokens but for the end of the file, joined by single spaces. -/
def spaced (ts : List Token) : String :=
  " ".intercalate ((ts.filter (!·.isEnd)).map Token.text)

namespace Lexer

variable {line : Nat} {kind : TokenKind} {t u v a b rest : List Char} {ts : List Token}

/-! ## The longest match before a gap -/

/-- The end of a text, or the start of a gap that is no comment. -/
def AtGap (cs : List Char) : Prop :=
  ∀ c ∈ cs.head?, ¬Ink c

theorem atGap_nil : AtGap [] := by
  rintro c ⟨⟩

theorem atGap_space : AtGap (' ' :: rest) := by
  rintro c ⟨⟩
  decide

/-- A text without gaps in it ends before one. -/
theorem AtGap.prefix_of_ink (hrest : AtGap rest) (hu : ∀ d ∈ u, Ink d)
    (hfront : u <+: a ++ rest) : u <+: a := by
  rcases Nat.le_total u.length a.length with hle | hle
  · exact List.prefix_of_prefix_length_le hfront (List.prefix_append a rest) hle
  · obtain ⟨v, rfl⟩ := List.prefix_of_prefix_length_le (List.prefix_append a rest) hfront hle
    have hv : v <+: rest := (List.prefix_append_right_inj a).1 hfront
    cases v with
    | nil => exact (List.append_nil a).symm ▸ List.prefix_refl a
    | cons d v =>
      obtain ⟨w, rfl⟩ := hv
      exact absurd (hu d (by simp)) (hrest d rfl)

theorem Starts.exists_body (h : Starts '"' u) : ∃ body, StringBody body ∧ u = body ++ ['"'] := by
  cases h with
  | name h _ => exact absurd h (by decide)
  | number h _ => exact absurd h (by decide)
  | string body _ hbody hu => exact ⟨body, hbody, hu⟩
  | symbol _ _ _ h _ _ => exact absurd rfl h

/-- No string literal is longer than one at its front. -/
theorem Starts.length_le (h : Starts '"' u) (h' : Starts '"' v) (hfront : v <+: u ++ a) :
    v.length ≤ u.length := by
  obtain ⟨body, hbody, rfl⟩ := h.exists_body
  obtain ⟨body', hbody', rfl⟩ := h'.exists_body
  obtain ⟨s, hs⟩ := hfront
  simp only [List.append_assoc, List.singleton_append] at hs
  have hsame : some (body', s) = some (body, a) := by
    rw [← stringBody?_eq_some.2 ⟨hbody', rfl⟩, ← stringBody?_eq_some.2 ⟨hbody, hs⟩]
  cases hsame
  exact Nat.le_refl _

theorem Longest.of_append (h : Longest (t ++ (a ++ b)) t) : Longest (t ++ a) t where
  matched := h.matched
  front := List.prefix_append t a
  maximal u hu hfront := by
    refine h.maximal u hu (hfront.trans ?_)
    rw [← List.append_assoc]
    exact List.prefix_append (t ++ a) b

theorem longest_self (h : Matched t) : Longest (t ++ []) t where
  matched := h
  front := List.prefix_append t []
  maximal u _ hfront := by simpa using hfront.length_le

/-- A token that is the longest match before `a` is so if a gap comes to stand behind
`a`. A match that reached into the gap would be a comment or a string literal. -/
theorem Longest.before_gap (hlongest : Longest (t ++ a) t) (h : Prescribed t kind)
    (hrest : AtGap rest) : Longest (t ++ (a ++ rest)) t where
  matched := h.matched
  front := List.prefix_append t (a ++ rest)
  maximal u hu hfront := by
    have hstart : AtToken (t ++ (a ++ rest)) := by
      refine h.atToken fun hslashes => ?_
      rw [← List.append_assoc] at hslashes
      have hwithin := hrest.prefix_of_ink (by simp; decide) hslashes
      exact hlongest.maximal _ (.trivia (.comment List.not_mem_nil)) hwithin
    obtain ⟨c, w, rfl, hstarts⟩ := h.eq_cons
    obtain ⟨v, rfl, hv, hstarts'⟩ := hstart.starts hu hfront
    by_cases hquote : c = '"'
    · subst hquote
      exact Nat.succ_le_succ (hstarts.length_le hstarts' hv)
    · rw [← List.append_assoc] at hfront
      exact hlongest.maximal _ hu (hrest.prefix_of_ink (hstarts'.ink hquote) hfront)

/-! ## Layouts with more space -/

theorem written_append (pieces : List (List Char × Token)) (last : List Char) :
    written pieces last = written pieces [] ++ last := by
  induction pieces with
  | nil => rfl
  | cons p pieces ih => rw [written, written, ih, List.append_assoc, List.append_assoc]

/-- Whether a gap ends in a comment shows before the end of the token behind it. -/
theorem Gap.congr {g : List Char} (h : Gap (t ++ a) g) (hne : t ≠ []) : Gap (t ++ b) g := by
  induction h with
  | nil => exact .nil
  | blank hc _ ih => exact .blank hc ih
  | newline _ ih => exact .newline ih
  | @comment body g hbody hend _ ih =>
    refine .comment hbody ?_ ih
    obtain ⟨d, t, rfl⟩ := List.exists_cons_of_ne_nil hne
    cases g <;> exact hend

/-- A blank that is put in front of a gap. -/
theorem Laid.insert {before after : List (List Char × Token)} {gap last : List Char} {t : Token}
    (h : Laid line (before ++ (gap, t) :: after) last) :
    Laid line (before ++ (' ' :: gap, t) :: after) last := by
  induction before generalizing line with
  | nil =>
    cases h with
    | token hgap hlongest hkind hline hrest =>
      exact .token (.blank (by simp [Blank]) hgap) hlongest hkind hline hrest
  | cons p before ih =>
    rw [List.cons_append] at h ⊢
    cases h with
    | @token _ gap' _ t' _ hgap hlongest hkind hline hrest =>
      have hsplit (g : List Char) : written (before ++ (g, t) :: after) last =
          written before [] ++ (g ++ (t.text.toList ++ written after last)) := by
        rw [written_split, written_append, List.append_assoc]
      rw [hsplit] at hgap hlongest
      refine .token ?_ ?_ hkind hline (ih hrest)
      · exact hgap.congr hkind.matched.ne_nil
      · rw [hsplit]
        exact hlongest.of_append.before_gap hkind atGap_space

/-! ## Tokens with single spaces between -/

/-- Tokens with a space in front of each, all on the first line. -/
def apart (ts : List Token) : List (List Char × Token) :=
  ts.map fun t => ([' '], t.onFirstLine)

theorem atGap_apart : AtGap (written (apart ts) []) := by
  cases ts with
  | nil => exact atGap_nil
  | cons t ts => exact atGap_space

theorem laid_apart (h : ∀ t ∈ ts, Prescribed t.text.toList t.kind) : Laid 1 (apart ts) [] := by
  induction ts with
  | nil => exact .last .nil
  | cons t ts ih =>
    obtain ⟨hkind, hrest⟩ := List.forall_mem_cons.1 h
    refine .token (.blank (by simp [Blank]) .nil) ?_ hkind rfl (ih hrest)
    exact (longest_self hkind.matched).before_gap hkind atGap_apart

theorem count_apart (h : ∀ t ∈ ts, Prescribed t.text.toList t.kind) :
    (written (apart ts) []).count '\n' = 0 := by
  induction ts with
  | nil => rfl
  | cons t ts ih =>
    obtain ⟨hkind, hrest⟩ := List.forall_mem_cons.1 h
    have htext : t.text.toList.count '\n' = 0 := List.count_eq_zero.2 hkind.newline_not_mem
    calc (written (apart (t :: ts)) []).count '\n'
        = (' ' :: (t.text.toList ++ written (apart ts) [])).count '\n' := rfl
      _ = 0 := by rw [List.count_cons_of_ne (by decide), List.count_append, htext, ih hrest]

theorem toList_intercalate_text (t : Token) (ts : List Token) :
    (" ".intercalate ((t :: ts).map Token.text)).toList =
      t.text.toList ++ written (apart ts) [] := by
  induction ts generalizing t with
  | nil => simp [apart, written]
  | cons t' ts ih =>
    rw [List.map_cons, List.map_cons, String.intercalate_cons_cons, String.toList_append,
      String.toList_append, ← List.map_cons, ih, List.append_assoc]
    rfl

/-- The lexer does not see that the first space is missing. -/
theorem lex_intercalate (h : ∀ t ∈ ts, Prescribed t.text.toList t.kind) :
    lex (" ".intercalate (ts.map Token.text)) =
      .ok (ts.map Token.onFirstLine ++ [⟨.eof, "", 1⟩]) := by
  have happart : lex (" ".intercalate (ts.map Token.text)) = lexFrom 1 (written (apart ts) []) := by
    cases ts with
    | nil => rw [List.map_nil, String.intercalate_nil, lex, String.toList_empty]; rfl
    | cons t ts =>
      rw [lex, toList_intercalate_text]
      exact (lexFrom_gap (g := [' ']) (.blank (by simp [Blank]) .nil)).symm
  rw [happart, lexFrom_of_laid (laid_apart h), count_apart h]
  simp [apart, Function.comp_def]

theorem Laid.prescribed {pieces : List (List Char × Token)} {last : List Char}
    (h : Laid line pieces last) : ∀ t ∈ pieces.map Prod.snd, Prescribed t.text.toList t.kind := by
  intro t ht
  obtain ⟨⟨gap, t⟩, hpiece, rfl⟩ := List.mem_map.1 ht
  obtain ⟨before, after, rfl⟩ := List.append_of_mem hpiece
  exact h.piece.2.2.1

theorem Prescribed.not_isEnd {t : Token} (h : Prescribed t.text.toList t.kind) :
    t.isEnd = false := by
  rw [Token.isEnd]
  generalize t.text.toList = text at h
  generalize t.kind = kind at h
  cases h <;> rfl

theorem spaced_concat {e : Token} (h : ∀ t ∈ ts, Prescribed t.text.toList t.kind)
    (he : e.isEnd = true) : spaced (ts ++ [e]) = " ".intercalate (ts.map Token.text) := by
  have hall : ∀ t ∈ ts, (!t.isEnd) = true := fun t ht => by rw [(h t ht).not_isEnd]; rfl
  rw [spaced, List.filter_append, List.filter_eq_self.2 hall, List.filter_singleton, he]
  simp

/-- What kind of token a text is does not depend on the source around it. -/
theorem kinds_eq_of_texts {ts' : List Token} (h : ∀ t ∈ ts, Prescribed t.text.toList t.kind)
    (h' : ∀ t ∈ ts', Prescribed t.text.toList t.kind)
    (htexts : ts'.map Token.text = ts.map Token.text) :
    ts'.map Token.kind = ts.map Token.kind := by
  have hsame := lex_intercalate h
  rw [← htexts, lex_intercalate h', Except.ok.injEq, List.append_left_inj] at hsame
  simpa [Token.onFirstLine, Function.comp_def] using congrArg (List.map Token.kind) hsame

end Lexer

open Lexer in
/-- The tokens of a source stay the same, but for their lines, if all that is left of the
source is their texts with single spaces between: the texts alone say which tokens they
are. They stay the same with their lines if a blank is put into the source where it has a
gap, or between two tokens that have none. -/
theorem lex_spaced {source : String} {ts : List Token} (h : lex source = .ok ts) :
    lex (spaced ts) = .ok (ts.map Token.onFirstLine) ∧
    (∀ source' ts', lex source' = .ok ts' → ts'.map Token.text = ts.map Token.text →
      ts'.map Token.kind = ts.map Token.kind) ∧
    ∃ (pieces : List (List Char × Token)) (last : List Char),
      Laid 1 pieces last ∧ source.toList = written pieces last ∧
      ts = pieces.map Prod.snd ++ [⟨.eof, "", 1 + source.toList.count '\n'⟩] ∧
      ∀ before gap t after, pieces = before ++ (gap, t) :: after →
        lex (String.ofList (written (before ++ (' ' :: gap, t) :: after) last)) = .ok ts := by
  obtain ⟨pieces, last, hlaid, hwritten, rfl⟩ := lexFrom_reads h
  refine ⟨?_, ?_, pieces, last, hlaid, hwritten.symm, rfl, ?_⟩
  · rw [spaced_concat hlaid.prescribed rfl, lex_intercalate hlaid.prescribed, List.map_append]
    rfl
  · rintro source' ts' h' htexts
    obtain ⟨pieces', last', hlaid', -, rfl⟩ := lexFrom_reads h'
    rw [List.map_append, List.map_append (f := Token.text)] at htexts
    rw [List.map_append, List.map_append (f := Token.kind)]
    have hkinds := kinds_eq_of_texts hlaid.prescribed hlaid'.prescribed
      (List.append_cancel_right htexts)
    rw [hkinds]
    rfl
  · rintro before gap t after rfl
    have hcount : (written (before ++ (' ' :: gap, t) :: after) last).count '\n' =
        source.toList.count '\n' := by
      rw [← hwritten, written_split, written_split, written_append _ gap,
        written_append _ (' ' :: gap)]
      simp
    rw [lex, String.toList_ofList, lexFrom_of_laid hlaid.insert, hcount]
    simp

/-- Tokens that would be others without the gaps that are here, and some without gaps. -/
def crowded : String :=
  "if(x)//c\n a->-=b/\t/=\"// \\\" \"y.z"

open Lexer in
theorem lex_spaced_crowded :
    ∃ ts : List Token, lex crowded = .ok ts ∧
      spaced ts = "if ( x ) a -> -= b / /= \"// \\\" \" y . z" ∧
      lex (spaced ts) = .ok (ts.map Token.onFirstLine) ∧
      (∀ source' ts', lex source' = .ok ts' → ts'.map Token.text = ts.map Token.text →
        ts'.map Token.kind = ts.map Token.kind) ∧
      ∃ (pieces : List (List Char × Token)) (last : List Char),
        Laid 1 pieces last ∧ crowded.toList = written pieces last ∧
        ts = pieces.map Prod.snd ++ [⟨.eof, "", 1 + crowded.toList.count '\n'⟩] ∧
        ∀ before gap t after, pieces = before ++ (gap, t) :: after →
          lex (String.ofList (written (before ++ (' ' :: gap, t) :: after) last)) = .ok ts := by
  have hlex : ∃ ts, lex crowded = .ok ts ∧
      spaced ts = "if ( x ) a -> -= b / /= \"// \\\" \" y . z" := ⟨_, by cbv, by cbv⟩
  obtain ⟨ts, hts, htext⟩ := hlex
  exact ⟨ts, hts, htext, lex_spaced hts⟩

end HeapScript
