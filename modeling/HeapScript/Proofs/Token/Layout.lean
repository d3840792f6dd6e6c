import HeapScript.Proofs.Token.Pattern

/-!
# The layout of a source

A source is its tokens with gaps before, between and after them.

* `Gap` is a sequence of blanks, line breaks and comments, and `written` puts tokens
  and gaps together to a text.
* `Laid` is what holds of each token and each gap; `lexFrom_reads` that the lexer finds
  such a layout, and `lexFrom_error` where it fails.
* `lex_layout`: the layout of a source, token by token.
-/

namespace HeapScript

namespace Lexer

/-! ## Gaps -/

/-- A sequence of blanks, line breaks and comments. What follows it says whether a
comment at its end reaches to the end of its line. -/
inductive Gap (rest : List Char) : List Char → Prop
  | nil : Gap rest []
  | blank {c : Char} {g : List Char} : Blank c → Gap rest g → Gap rest (c :: g)
  | newline {g : List Char} : Gap rest g → Gap rest ('\n' :: g)
  | comment {body g : List Char} : '\n' ∉ body → (∀ c ∈ (g ++ rest).head?, c = '\n') →
    Gap rest g → Gap rest ('/' :: '/' :: body ++ g)

/-- A text that starts with neither a blank nor a line break nor a comment starts with a
token. -/
theorem atToken_of_not {c : Char} {r : List Char} (hnewline : c ≠ '\n') (hblank : ¬Blank c)
    (hcomment : ¬(c = '/' ∧ r.head? = some '/')) : AtToken (c :: r) := by
  rintro g hg hfront
  cases hg with
  | blank hne h =>
    obtain _ | ⟨d, g⟩ := g
    · exact hne rfl
    · obtain ⟨rfl, -⟩ := List.cons_prefix_cons.1 hfront
      exact hblank (h d List.mem_cons_self)
  | comment =>
    obtain ⟨rfl, hr⟩ := List.cons_prefix_cons.1 hfront
    obtain ⟨s, rfl⟩ := hr
    exact hcomment ⟨rfl, rfl⟩
  | newline =>
    obtain ⟨rfl, -⟩ := List.cons_prefix_cons.1 hfront
    exact hnewline rfl

/-! ## Tokens are on one line -/

theorem NameText.not_mem {t : List Char} {c : Char} (h : NameText t) (hl : ¬Letter c)
    (hd : ¬Digit c) : c ∉ t := by
  obtain _ | ⟨d, r⟩ := t
  · exact h.elim
  rintro (_ | ⟨_, hmem⟩)
  · exact hl h.1
  · exact (h.2 _ hmem).elim hl hd

theorem Digits.not_mem {t : List Char} {c : Char} (h : Digits t) (hd : ¬Digit c) : c ∉ t :=
  fun hmem => hd (h.2 _ hmem)

theorem StringBody.newline_not_mem {t : List Char} (h : StringBody t) : '\n' ∉ t := by
  induction h with
  | nil => exact List.not_mem_nil
  | plain _ _ hnewline _ ih => simp [Ne.symm hnewline, ih]
  | escape hnewline _ ih => simp [Ne.symm hnewline, ih]

theorem Prescribed.newline_not_mem {t : List Char} {kind : TokenKind} (h : Prescribed t kind) :
    '\n' ∉ t := by
  cases h with
  | symbol s =>
    rcases s.keyword_or_mem_punctuation with ⟨k, rfl⟩ | hs
    · exact (nameText_keyword k).not_mem (by decide) (by decide)
    · have hall : ∀ s ∈ Symbol.punctuation, '\n' ∉ s.spelling.toList := by decide
      exact hall s hs
  | number h =>
    cases h with
    | whole h => exact h.not_mem (by decide)
    | point h h' => simp [h.not_mem (c := '\n') (by decide), h'.not_mem (c := '\n') (by decide)]
  | string h _ => simp [h.newline_not_mem]
  | name h _ => exact h.not_mem (by decide) (by decide)

/-! ## Layouts -/

/-- The text of tokens, each with the gap before it, and of the gap after the last. -/
def written : List (List Char × Token) → List Char → List Char
  | [], last => last
  | (gap, t) :: r, last => gap ++ (t.text.toList ++ written r last)

/-- What is written before a token, the token and what is written behind it. -/
theorem written_split (before after : List (List Char × Token)) (gap last : List Char)
    (t : Token) : written (before ++ (gap, t) :: after) last =
      written before gap ++ (t.text.toList ++ written after last) := by
  induction before with
  | nil => rfl
  | cons p before ih =>
    rw [List.cons_append, written, written, ih, List.append_assoc, List.append_assoc]

/-- The tokens and the gaps of a text whose first character stands on the given line. -/
inductive Laid : Nat → List (List Char × Token) → List Char → Prop
  | last {line : Nat} {last : List Char} : Gap [] last → Laid line [] last
  | token {line : Nat} {gap last : List Char} {t : Token} {r : List (List Char × Token)} :
    Gap (t.text.toList ++ written r last) gap →
    Longest (t.text.toList ++ written r last) t.text.toList →
    Prescribed t.text.toList t.kind → t.line = line + gap.count '\n' → Laid t.line r last →
    Laid line ((gap, t) :: r) last

/-- The text, whose first character stands on the given line, consists of the tokens
but for the last, which is the one for its end. -/
def Reads (line : Nat) (cs : List Char) (ts : List Token) : Prop :=
  ∃ pieces last, Laid line pieces last ∧ written pieces last = cs ∧
    ts = pieces.map Prod.snd ++ [⟨.eof, "", line + cs.count '\n'⟩]

variable {line : Nat} {cs : List Char} {ts : List Token}

theorem reads_nil : Reads line [] [⟨.eof, "", line⟩] :=
  ⟨[], [], .last .nil, rfl, rfl⟩

/-- A text with something in front that extends the gap there. -/
theorem Reads.extend (front : List Char) (h : Reads (line + front.count '\n') cs ts)
    (hgap : ∀ {rest g}, g ++ rest = cs → Gap rest g → Gap rest (front ++ g)) :
    Reads line (front ++ cs) ts := by
  obtain ⟨pieces, last, hlaid, rfl, rfl⟩ := h
  have hcount : line + front.count '\n' + (written pieces last).count '\n' =
      line + (front ++ written pieces last).count '\n' := by
    rw [List.count_append, Nat.add_assoc]
  cases hlaid with
  | last h =>
    exact ⟨[], front ++ last, .last (hgap (List.append_nil last) h), rfl, by rw [← hcount]⟩
  | @token _ gap _ t r h hlongest hkind hline hr =>
    refine ⟨(front ++ gap, t) :: r, last, ?_, List.append_assoc .., by rw [← hcount]; rfl⟩
    refine .token (hgap rfl h) hlongest hkind ?_ hr
    rw [hline, List.count_append, Nat.add_assoc]

/-- A text with a token in front. -/
theorem Reads.cons {c : Char} {r : List Char} {l : Lexeme} (h : lexeme c r = .ok l)
    (hstart : AtToken (c :: r)) (hrest : Reads line l.rest ts) :
    Reads line (c :: r) (⟨l.kind, String.ofList l.text, line⟩ :: ts) := by
  have hfront := lexeme_append h
  have hkind := prescribed_of_lexeme h
  obtain ⟨pieces, last, hlaid, hwritten, rfl⟩ := hrest
  have hcs : (String.ofList l.text).toList ++ written pieces last = c :: r := by
    rw [String.toList_ofList, hwritten, hfront]
  refine ⟨([], ⟨l.kind, String.ofList l.text, line⟩) :: pieces, last, ?_, hcs, ?_⟩
  · refine .token .nil ?_ (by rwa [String.toList_ofList]) rfl hlaid
    rw [hcs, String.toList_ofList]
    exact longest_of_lexeme h hstart
  · have hcount : (c :: r).count '\n' = l.rest.count '\n' := by
      rw [← hfront, List.count_append, List.count_eq_zero.2 hkind.newline_not_mem, Nat.zero_add]
    rw [hcount]
    rfl

/-- A line that is skipped, and what follows it. -/
theorem skipLine_append (cs : List Char) :
    ∃ body, body ++ skipLine cs = cs ∧ '\n' ∉ body ∧ ∀ c ∈ (skipLine cs).head?, c = '\n' := by
  refine ⟨cs.takeWhile (· != '\n'), List.takeWhile_append_dropWhile, fun hmem => ?_, fun c hc => ?_⟩
  · have hne := List.mem_takeWhile_imp hmem
    simp at hne
  · have hstop := List.head?_dropWhile_not (· != '\n') cs
    rw [skipLine] at hc
    rw [hc] at hstop
    simpa using hstop

/-- A line comment with what follows it. -/
theorem comment_append {c : Char} {r : List Char} (h : c = '/' ∧ r.head? = some '/') :
    ∃ body, c :: r = '/' :: '/' :: body ++ skipLine r ∧ '\n' ∉ body ∧
      ∀ c ∈ (skipLine r).head?, c = '\n' := by
  obtain ⟨rfl, hr⟩ := h
  obtain _ | ⟨d, r⟩ := r
  · cases hr
  · cases hr
    obtain ⟨body, hbody, hnewline, hend⟩ := skipLine_append r
    have hskip : skipLine ('/' :: r) = skipLine r := by simp [skipLine]
    rw [hskip]
    exact ⟨body, by rw [List.cons_append, List.cons_append, hbody], hnewline, hend⟩

/-- The lexer finds the layout of a text. -/
theorem lexFrom_reads (h : lexFrom line cs = .ok ts) : Reads line cs ts := by
  fun_induction lexFrom line cs generalizing ts with
  | case1 =>
    cases h
    exact reads_nil
  | case2 line r ih =>
    exact (ih h).extend ['\n'] fun _ hg => .newline hg
  | case3 line c r hnewline hblank ih =>
    have hcount : [c].count '\n' = 0 := List.count_eq_zero.2 (by simpa using Ne.symm hnewline)
    refine Reads.extend [c] ?_ fun _ hg => .blank (isGap_iff.1 hblank) hg
    rw [hcount]
    exact ih h
  | case4 line c r _ _ hcomment ih =>
    obtain ⟨body, hcs, hbody, hend⟩ := comment_append hcomment
    have hcount : ('/' :: '/' :: body).count '\n' = 0 :=
      List.count_eq_zero.2 (by simpa using hbody)
    rw [hcs]
    refine Reads.extend _ ?_ fun hrest hg => .comment hbody (by rwa [hrest]) hg
    rw [hcount]
    exact ih h
  | case5 => cases h
  | case6 line c r hnewline hblank hcomment l hl ih =>
    cases hts : lexFrom line l.rest with
    | error e =>
      rw [hts] at h
      cases h
    | ok ts' =>
      rw [hts] at h
      cases h
      exact (ih hts).cons hl (atToken_of_not hnewline (isGap_iff.not.1 hblank) hcomment)

/-- The lexer takes a token where neither a gap nor a comment starts. -/
theorem lexFrom_token {c : Char} {r : List Char} {l : Lexeme} (hnewline : c ≠ '\n')
    (hgap : ¬isGap c) (hcomment : ¬(c = '/' ∧ r.head? = some '/')) (h : lexeme c r = .ok l) :
    lexFrom line (c :: r) =
      (lexFrom line l.rest).map (⟨l.kind, String.ofList l.text, line⟩ :: ·) := by
  rw [lexFrom, if_neg hnewline, if_neg hgap, if_neg hcomment]
  split
  · rename_i hl
    rw [h] at hl
    cases hl
  · rename_i hl
    rw [h] at hl
    cases hl
    rfl

/-- The lexer fails at a character that no token starts with, on the line of that. -/
theorem lexFrom_error {e : LexError} (h : lexFrom line cs = .error e) :
    ∃ before c r, cs = before ++ c :: r ∧ e.line = line + before.count '\n' ∧
      lexeme c r = .error e.fault := by
  fun_induction lexFrom line cs with
  | case1 => cases h
  | case2 line r ih =>
    obtain ⟨before, c, s, rfl, hline, hl⟩ := ih h
    exact ⟨'\n' :: before, c, s, rfl, by rw [hline, List.count_cons_self]; omega, hl⟩
  | case3 line c r hnewline _ ih =>
    obtain ⟨before, d, s, rfl, hline, hl⟩ := ih h
    exact ⟨c :: before, d, s, rfl, by rw [hline, List.count_cons_of_ne hnewline], hl⟩
  | case4 line c r _ _ hcomment ih =>
    obtain ⟨body, hcs, hbody, -⟩ := comment_append hcomment
    obtain ⟨before, d, s, hskip, hline, hl⟩ := ih h
    have hcount : ('/' :: '/' :: body).count '\n' = 0 :=
      List.count_eq_zero.2 (by simpa using hbody)
    refine ⟨'/' :: '/' :: body ++ before, d, s, by rw [hcs, hskip, List.append_assoc], ?_, hl⟩
    rw [List.count_append, hcount, hline, Nat.zero_add]
  | case5 line c r _ _ _ fault hl =>
    cases h
    exact ⟨[], c, r, rfl, rfl, hl⟩
  | case6 line c r _ _ _ l hl ih =>
    cases hts : lexFrom line l.rest with
    | ok ts =>
      rw [hts] at h
      cases h
    | error e' =>
      rw [hts] at h
      cases h
      obtain ⟨before, d, s, hrest, hline, hl'⟩ := ih hts
      have hcount := List.count_eq_zero.2 (prescribed_of_lexeme hl).newline_not_mem
      refine ⟨l.text ++ before, d, s, ?_, ?_, hl'⟩
      · rw [List.append_assoc, ← hrest, lexeme_append hl]
      · rw [List.count_append, hcount, hline, Nat.zero_add]

/-! ## Token by token -/

theorem Laid.gap_last {pieces : List (List Char × Token)} {last : List Char}
    (h : Laid line pieces last) : Gap [] last := by
  induction h with
  | last h => exact h
  | token _ _ _ _ _ ih => exact ih

theorem Laid.piece {before after : List (List Char × Token)} {gap last : List Char} {t : Token}
    (h : Laid line (before ++ (gap, t) :: after) last) :
    Gap (t.text.toList ++ written after last) gap ∧
      Longest (t.text.toList ++ written after last) t.text.toList ∧
      Prescribed t.text.toList t.kind ∧ t.line = line + (written before gap).count '\n' := by
  induction before generalizing line with
  | nil =>
    cases h with
    | token hgap hlongest hkind hline _ => exact ⟨hgap, hlongest, hkind, hline⟩
  | cons p before ih =>
    cases h with
    | @token _ gap' _ t' _ _ _ hkind' hline' hrest =>
      obtain ⟨hgap, hlongest, hkind, hline⟩ := ih hrest
      refine ⟨hgap, hlongest, hkind, ?_⟩
      have hcount := List.count_eq_zero.2 hkind'.newline_not_mem
      rw [hline, hline', written, List.count_append, List.count_append, hcount]
      omega

end Lexer

open Lexer in
/-- The tokens of a source and the gaps around them make up the source. Each token is the
longest one at its place and of the kind that its text has, and its line is one more than
the number of line breaks before it. -/
theorem lex_layout {source : String} {ts : List Token} (h : lex source = .ok ts) :
    ∃ (pieces : List (List Char × Token)) (last : List Char),
      source.toList = written pieces last ∧
      ts = pieces.map Prod.snd ++ [⟨.eof, "", 1 + source.toList.count '\n'⟩] ∧
      Gap [] last ∧
      ∀ before gap t after, pieces = before ++ (gap, t) :: after →
        Gap (t.text.toList ++ written after last) gap ∧
        Longest (t.text.toList ++ written after last) t.text.toList ∧
        Prescribed t.text.toList t.kind ∧ t.line = 1 + (written before gap).count '\n' := by
  obtain ⟨pieces, last, hlaid, hwritten, hts⟩ := lexFrom_reads h
  refine ⟨pieces, last, hwritten.symm, hts, hlaid.gap_last, ?_⟩
  rintro before gap t after rfl
  exact hlaid.piece

/-- A word that a reserved word starts, a comment, a quote and slashes in a string, and an
arrow before `-=`. -/
def tangled : String :=
  "if (ifs) // \"\n\t\"\\\"//\"->-=\r\n/x//"

open Lexer in
theorem lex_layout_tangled :
    ∃ (ts : List Token) (pieces : List (List Char × Token)) (last : List Char),
      lex tangled = .ok ts ∧
      ts.map (fun t => (t.text, t.line)) = [("if", 1), ("(", 1), ("ifs", 1), (")", 1),
        ("\"\\\"//\"", 2), ("->", 2), ("-=", 2), ("/", 3), ("x", 3), ("", 3)] ∧
      tangled.toList = written pieces last ∧
      ts = pieces.map Prod.snd ++ [⟨.eof, "", 1 + tangled.toList.count '\n'⟩] ∧
      Gap [] last ∧
      ∀ before gap t after, pieces = before ++ (gap, t) :: after →
        Gap (t.text.toList ++ written after last) gap ∧
        Longest (t.text.toList ++ written after last) t.text.toList ∧
        Prescribed t.text.toList t.kind ∧ t.line = 1 + (written before gap).count '\n' := by
  have hlex : ∃ ts, lex tangled = .ok ts ∧
      ts.map (fun t => (t.text, t.line)) = [("if", 1), ("(", 1), ("ifs", 1), (")", 1),
        ("\"\\\"//\"", 2), ("->", 2), ("-=", 2), ("/", 3), ("x", 3), ("", 3)] :=
    ⟨_, by cbv, by cbv⟩
  obtain ⟨ts, hts, hmap⟩ := hlex
  obtain ⟨pieces, last, hlayout⟩ := lex_layout hts
  exact ⟨ts, pieces, last, hts, hmap, hlayout⟩

end HeapScript
