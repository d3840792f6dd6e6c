import HeapScript.Script
import HeapScript.Proofs.Position.Error
import HeapScript.Proofs.Report.Line
import HeapScript.Proofs.Token.Layout

/-!
# The lines of tokens and errors are lines of the source

Lines pass from the source to tokens, from those to statements and syntax errors, and from
statements to runtime errors and their traces.

* `Lexer.Laid.covers`: a token lies in the span of its line.
* `tokens_lined`: the lines of the tokens of a source are lines of it, so all lines that a
  parser comes to stand at are, too.
* `lines_of_source`: so are the lines of the errors of a run, and the span of each line
  of the source is what it takes up there.
-/

namespace HeapScript

open Report

/-! ## Tokens -/

namespace Lexer

theorem exists_last_ne {t : List Char} (hne : t ≠ []) (h : '\r' ∉ t) :
    ∃ c ∈ t.getLast?, c ≠ '\r' := by
  refine ⟨t.getLast hne, List.getLast?_eq_some_getLast hne, fun hc => h ?_⟩
  exact hc ▸ List.getLast_mem hne

theorem NameText.last_ne {t : List Char} (h : NameText t) : ∃ c ∈ t.getLast?, c ≠ '\r' :=
  exists_last_ne (by rintro rfl; exact h) (h.not_mem (by decide) (by decide))

/-- A token does not end in a carriage return. -/
theorem Prescribed.last_ne {t : List Char} {kind : TokenKind} (h : Prescribed t kind) :
    ∃ c ∈ t.getLast?, c ≠ '\r' := by
  cases h with
  | symbol s =>
    rcases s.keyword_or_mem_punctuation with ⟨k, rfl⟩ | hs
    · exact (nameText_keyword k).last_ne
    · have hall : ∀ s ∈ Symbol.punctuation, s.spelling.toList ≠ [] ∧ '\r' ∉ s.spelling.toList := by
        decide
      exact exists_last_ne (hall s hs).1 (hall s hs).2
  | number h =>
    cases h with
    | whole h => exact exists_last_ne h.1 (h.not_mem (by decide))
    | @point cs ds _ h =>
      obtain ⟨c, hc, hne⟩ := exists_last_ne h.1 (h.not_mem (by decide))
      exact ⟨c, by simp [List.getLast?_append, List.getLast?_cons, Option.mem_def.1 hc], hne⟩
  | @string body _ _ _ => exact ⟨'"', List.getLast?_concat, by decide⟩
  | name h _ => exact h.last_ne

/-- A token of a source lies in the span of its line. -/
theorem Laid.covers {source : String} {before after : List (List Char × Token)}
    {gap last : List Char} {t : Token} (h : Laid 1 (before ++ (gap, t) :: after) last)
    (hsource : source.toList = written (before ++ (gap, t) :: after) last) :
    (lineSpan source t.line).start ≤ byteLength (written before gap) ∧
      byteLength (written before gap) + byteLength t.text.toList ≤
        (lineSpan source t.line).stop := by
  obtain ⟨-, -, hkind, hline⟩ := h.piece
  rw [written_split] at hsource
  rw [hline, Nat.add_comm]
  exact lineSpan_covers hsource hkind.newline_not_mem hkind.last_ne

/-- The tokens of a source are on lines of it. -/
theorem Laid.hasLine {source : String} {pieces : List (List Char × Token)} {last : List Char}
    (h : Laid 1 pieces last) (hsource : source.toList = written pieces last)
    {p : List Char × Token} (hp : p ∈ pieces) : HasLine source p.2.line := by
  obtain ⟨before, after, rfl⟩ := List.append_of_mem hp
  obtain ⟨-, -, -, hline⟩ := h.piece
  have hcount : (written before p.1).count '\n' ≤ source.toList.count '\n' := by
    rw [hsource, written_split, List.count_append]
    exact Nat.le_add_right _ _
  rw [hline]
  exact ⟨Nat.le_add_right 1 _, by omega⟩

end Lexer

section Lines

variable {source name : String} {ts : List Token}

/-- All tokens of a source are on lines of it, and the last is the end of the file. -/
theorem hasLine_of_lex (h : lex source = .ok ts) {t : Token} (ht : t ∈ ts) :
    HasLine source t.line := by
  obtain ⟨pieces, last, hlaid, hwritten, rfl⟩ := Lexer.lexFrom_reads h
  rcases List.mem_append.1 ht with ht | ht
  · obtain ⟨p, hp, rfl⟩ := List.mem_map.1 ht
    exact hlaid.hasLine hwritten.symm hp
  · cases List.mem_singleton.1 ht
    exact ⟨Nat.le_add_right 1 _, by rw [Nat.add_comm]⟩

theorem eof_mem_of_lex (h : lex source = .ok ts) : ∃ t ∈ ts, t.kind = .eof := by
  obtain ⟨pieces, last, -, -, rfl⟩ := Lexer.lexFrom_reads h
  exact ⟨_, List.mem_append_right _ (List.mem_singleton_self _), rfl⟩

theorem lined_of_lex (h : lex source = .ok ts) : Parser.Lined (HasLine source) ts :=
  Parser.lined_of_mem (fun _ => hasLine_of_lex h) (eof_mem_of_lex h)

/-- A text that is no program is so on one of its lines. -/
theorem hasLine_of_syntaxError {e : SourceError} (h : parseSource name source = .error e) :
    HasLine source e.line := by
  rw [parseSource] at h
  split at h
  · rename_i e' hlex
    cases h
    obtain ⟨before, c, r, hsource, hline, -⟩ := Lexer.lexFrom_error hlex
    have hcount : before.count '\n' ≤ source.toList.count '\n' := by
      rw [hsource, List.count_append]
      exact Nat.le_add_right _ _
    show HasLine source e'.line
    rw [hline]
    exact ⟨Nat.le_add_right 1 _, by omega⟩
  · rename_i ts hlex
    split at h
    · rename_i e' hparse
      cases h
      exact line_of_parse_error hparse (lined_of_lex hlex)
    · cases h

theorem hasLine_of_parsed {p : Program} (h : parseSource name source = .ok p) {s : Stmt}
    (hs : p.Contains s) : HasLine source s.line := by
  rw [parseSource] at h
  split at h
  · cases h
  · rename_i ts hlex
    split at h
    · cases h
    · rename_i p' hparse
      cases h
      exact contains_of_parse hparse (lined_of_lex hlex) hs

/-- An error of a fresh machine that runs a program is on lines of statements, and so are
the frames of its trace. -/
theorem lines_of_fresh_run {Q : Nat → Prop} {p : Program} {fuel : Nat} {config : Config}
    {console : Console} {files : Files} {args : List String} {e : RuntimeError} {m' : Machine}
    (hQ : ∀ s, p.Contains s → Q s.line)
    (h : ((Machine.create config .builtin console files).bindArguments args).runWith fuel p =
      .error e m') :
    ∃ site, e.site = some site ∧ Q site.line ∧ site.trace ≠ [] ∧
      ∀ entry ∈ site.trace, Q entry.line := by
  have hinv : (bodiesLaw fun s => Q s.line).Inv { (Machine.create config .builtin console
      files).bindArguments args with sourceName := p.sourceName } :=
    ((Trait.inv_create config console files).bindArguments args).named p.sourceName
  obtain ⟨site, shown, line, hsite, -, htraced⟩ :=
    Law.traced_of_runWith (Program.within (fun _ _ => trivial) hQ) hinv rfl h
  obtain ⟨hline, hframes⟩ := htraced.lines (fun _ hs => hs) (by simp)
  have htrace := htraced.trace
  rw [List.append_nil] at htrace
  refine ⟨site, hsite, hline, by simp [htrace], fun entry hentry => hframes entry ?_⟩
  rwa [htrace] at hentry

end Lines

/-- All lines that the error mentions are lines of the source. -/
def RunError.InSource (source : String) : RunError → Prop
  | .source e => HasLine source e.line
  | .runtime e => ∃ site, e.site = some site ∧ HasLine source site.line ∧ site.trace ≠ [] ∧
      ∀ entry ∈ site.trace, HasLine source entry.line
  | .read _ _ | .unfinished => True

open Lexer in
/-- The lines of the tokens of a source and of the errors of its runs are lines of it. The
span of a line is the range of its bytes, without the carriage returns at its end, and the
span of the line of a token covers the token. An error of the lexer is on the line of a
character that no token starts with, one of the parser on the line of a token. -/
theorem lines_of_source (source : String) :
    (∀ n, HasLine source n → ∃ before kept returns after,
      IsLine source.toList n before (kept ++ List.replicate returns '\r') after ∧
      kept.getLast? ≠ some '\r' ∧
      lineSpan source n = ⟨byteLength before, byteLength before + byteLength kept⟩) ∧
    (∀ ts, lex source = .ok ts → (∀ t ∈ ts, HasLine source t.line) ∧
      ∃ (pieces : List (List Char × Token)) (last : List Char),
        Laid 1 pieces last ∧ source.toList = written pieces last ∧
        ts = pieces.map Prod.snd ++ [⟨.eof, "", 1 + source.toList.count '\n'⟩] ∧
        ∀ before gap t after, pieces = before ++ (gap, t) :: after →
          (lineSpan source t.line).start ≤ byteLength (written before gap) ∧
          byteLength (written before gap) + byteLength t.text.toList ≤
            (lineSpan source t.line).stop) ∧
    (∀ e, lex source = .error e → ∃ before c r, source.toList = before ++ c :: r ∧
      lexeme c r = .error e.fault ∧ e.line = 1 + before.count '\n') ∧
    (∀ ts name e, lex source = .ok ts → parse name ts = .error e → ∃ t ∈ ts, e.line = t.line) ∧
    ∀ name args config console files e,
      (runSource source name args config console files).error = some e → e.InSource source := by
  refine ⟨fun n hn => ?_, fun ts hts => ⟨fun t => hasLine_of_lex hts, ?_⟩, fun e he => ?_,
    fun ts name e hts he => ?_, fun name args config console files e he => ?_⟩
  · obtain ⟨before, text, after, hline⟩ := exists_isLine hn
    obtain ⟨returns, htext, hlast⟩ := stripReturns_append text
    refine ⟨before, stripReturns text, returns, after, ?_, hlast, lineSpan_eq hline⟩
    rwa [← htext]
  · obtain ⟨pieces, last, hlaid, hwritten, rfl⟩ := lexFrom_reads hts
    refine ⟨pieces, last, hlaid, hwritten.symm, rfl, ?_⟩
    rintro before gap t after rfl
    exact hlaid.covers hwritten.symm
  · obtain ⟨before, c, r, hsource, hline, hfault⟩ := lexFrom_error he
    exact ⟨before, c, r, hsource, hfault, hline⟩
  · refine line_of_parse_error (Q := fun n => ∃ t ∈ ts, n = t.line) he ?_
    exact Parser.lined_of_mem (fun t ht => ⟨t, ht, rfl⟩) (eof_mem_of_lex hts)
  · rw [runSource] at he
    split at he
    · rename_i e' hparse
      cases he
      exact hasLine_of_syntaxError hparse
    · rename_i p hparse
      simp only at he
      split at he
      · cases he
      · rename_i e' m' hrun
        cases he
        exact lines_of_fresh_run (fun s => hasLine_of_parsed hparse) hrun
      · cases he
        trivial

/-- A comment with a character of two bytes, and a line that uses an unknown name. -/
def unknown : String :=
  "// é\r\nx;\n"

/-- The error is on the second line, which takes the bytes from 7 to 9. -/
theorem lines_of_source_unknown :
    ∃ ts e site before kept returns after,
      lex unknown = .ok ts ∧ (∀ t ∈ ts, HasLine unknown t.line) ∧
      (runSource unknown "main" [] {} .silent {}).error = some (.runtime e) ∧
      e.site = some site ∧ site.line = 2 ∧ HasLine unknown site.line ∧
      IsLine unknown.toList 2 before (kept ++ List.replicate returns '\r') after ∧
      lineSpan unknown 2 = ⟨byteLength before, byteLength before + byteLength kept⟩ ∧
      lineSpan unknown 2 = ⟨7, 9⟩ := by
  have hlex : lex unknown = .ok [⟨.ident "x", "x", 2⟩,
      ⟨.symbol (.delimiter .semicolon), ";", 2⟩, ⟨.eof, "", 3⟩] := by cbv
  have hrun : ∃ e, (runSource unknown "main" [] {} .silent {}).error = some (.runtime e) ∧
      e.site = some ⟨"main", 2, [⟨"<main>", 2⟩]⟩ := by
    rw [runSource, parseSource, hlex]
    exact ⟨_, rfl, rfl⟩
  obtain ⟨e, he, hsite⟩ := hrun
  obtain ⟨hspans, htokens, -, -, hruns⟩ := lines_of_source unknown
  obtain ⟨site, hsite', hline, -⟩ := hruns _ _ _ _ _ _ he
  cases hsite.symm.trans hsite'
  obtain ⟨before, kept, returns, after, hisLine, -, hspan⟩ := hspans 2 hline
  exact ⟨_, e, _, before, kept, returns, after, hlex, (htokens _ hlex).1, he, hsite, rfl, hline,
    hisLine, hspan, by decide +kernel⟩

end HeapScript
