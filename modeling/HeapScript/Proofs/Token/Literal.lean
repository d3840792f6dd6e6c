import HeapScript.Proofs.Fault.Outcome
import HeapScript.Proofs.Token.First
import HeapScript.Proofs.Token.Layout

/-!
# String literals

Writing a text as a literal and reading it back, and which literals are refused.

* `Literal.encode` is the literal of a text; `lex_encode` reads it back.
* `Literal.EscapeAt` is a backslash that starts an escape, told by the run of backslashes
  before it, and `Literal.Refused` the first character that may not follow one.
* `literals_round_trip`: every literal that is read can be written again, and one is
  refused for its first wrong escape alone.
-/

namespace HeapScript

open Lexer (StringBody lexeme lexFrom)

namespace Literal

/-- The literal of a text. -/
def encode (x : String) : String :=
  String.ofList ('"' :: writeBody x.toList ++ ['"'])

/-- The characters that may follow a backslash. -/
def letters : List Char :=
  ['n', 't', 'r', '0', '\\', '"']

/-- How many backslashes a text ends in. -/
def slashes (cs : List Char) : Nat :=
  (cs.rtakeWhile (· = '\\')).length

/-- A backslash in escape position: those right before it pair up among themselves. The
body is split at the backslash. -/
structure EscapeAt (body before after : List Char) : Prop where
  text : body = before ++ '\\' :: after
  even : Even (slashes before)

/-- The character behind a backslash in escape position. -/
def Escapes (body before : List Char) (e : Char) : Prop :=
  ∃ after, EscapeAt body before (e :: after)

/-- The first character behind a backslash in escape position that may not follow one. -/
def Refused (body : List Char) : Char → Prop :=
  First (Escapes body) (· ∉ letters)

variable {c e : Char} {cs r body before after : List Char}

/-! ## Decoding -/

theorem escaped?_eq_none : escaped? e = none ↔ e ∉ letters := by
  unfold escaped? letters
  split <;> simp_all

theorem cook_plain (h : c ≠ '\\') : cook (c :: r) = (cook r).map (c :: ·) := by
  rw [cook.eq_def]
  split <;> simp_all

theorem cook_escape (h : escaped? e = some c) :
    cook ('\\' :: e :: r) = (cook r).map (c :: ·) := by
  rw [cook]
  simp only [h]

theorem cook_wrong (h : escaped? e = none) : cook ('\\' :: e :: r) = .error e := by
  rw [cook]
  simp only [h]

/-- A character is written as an escape that stands for it, or as itself. -/
theorem writeChar_cases (c : Char) :
    (∃ e, writeChar c = ['\\', e] ∧ escaped? e = some c ∧ e ≠ '\n') ∨
      writeChar c = [c] ∧ c ≠ '"' ∧ c ≠ '\\' ∧ c ≠ '\n' := by
  unfold writeChar
  split
  · exact .inl ⟨_, rfl, rfl, by decide⟩
  · exact .inl ⟨_, rfl, rfl, by decide⟩
  · exact .inl ⟨_, rfl, rfl, by decide⟩
  · exact .inl ⟨_, rfl, rfl, by decide⟩
  · exact .inl ⟨_, rfl, rfl, by decide⟩
  · exact .inl ⟨_, rfl, rfl, by decide⟩
  · rename_i hnewline _ _ _ hslash hquote
    exact .inr ⟨rfl, hquote, hslash, hnewline⟩

theorem cook_writeBody (cs : List Char) : cook (writeBody cs) = .ok cs := by
  induction cs with
  | nil => rfl
  | cons c cs ih =>
    rw [writeBody, List.flatMap_cons, ← writeBody]
    rcases writeChar_cases c with ⟨e, hc, he, -⟩ | ⟨hc, -, hslash, -⟩
    · rw [hc, List.cons_append, List.cons_append, List.nil_append, cook_escape he]
      exact map_eq_ok.2 ⟨cs, ih, rfl⟩
    · rw [hc, List.cons_append, List.nil_append, cook_plain hslash]
      exact map_eq_ok.2 ⟨cs, ih, rfl⟩

theorem stringBody_writeBody (cs : List Char) : StringBody (writeBody cs) := by
  induction cs with
  | nil => exact .nil
  | cons c cs ih =>
    rw [writeBody, List.flatMap_cons, ← writeBody]
    rcases writeChar_cases c with ⟨e, hc, -, hnewline⟩ | ⟨hc, hquote, hslash, hnewline⟩
    · rw [hc]
      exact .escape hnewline ih
    · rw [hc]
      exact .plain hquote hslash hnewline ih

/-! ## Escape positions -/

theorem slashes_append (cs ds : List Char) : slashes (cs ++ ds) =
    if slashes ds = ds.length then ds.length + slashes cs else slashes ds := by
  simp only [slashes, List.rtakeWhile, List.length_reverse, List.reverse_append,
    List.takeWhile_append]
  split <;> simp

theorem slashes_plain (h : c ≠ '\\') : slashes ([c] ++ cs) = slashes cs := by
  have hc : slashes [c] = 0 := by simp [slashes, List.rtakeWhile, h]
  rw [slashes_append, hc]
  split
  · rename_i hall
    exact hall.symm
  · rfl

/-- The two characters of an escape make no difference to the pairing, also where both
are backslashes. -/
theorem even_slashes_escape : Even (slashes (['\\', c] ++ cs)) ↔ Even (slashes cs) := by
  have hc : Even (slashes ['\\', c]) := by
    by_cases h : c = '\\' <;> simp [slashes, List.rtakeWhile, h]
  rw [slashes_append]
  split
  · rename_i hall
    rw [hall, Nat.even_add, iff_true_right hc]
  · exact Iff.rfl

/-- Escape positions behind a plain character. -/
theorem escapeAt_plain (h : c ≠ '\\') :
    EscapeAt (c :: r) before after ↔ ∃ u, before = [c] ++ u ∧ EscapeAt r u after := by
  constructor
  · rintro ⟨htext, heven⟩
    obtain _ | ⟨d, u⟩ := before
    · exact absurd (List.cons.inj htext).1 h
    · obtain ⟨rfl, hr⟩ := List.cons.inj htext
      exact ⟨u, rfl, hr, (slashes_plain h) ▸ heven⟩
  · rintro ⟨u, rfl, htext, heven⟩
    exact ⟨congrArg (c :: ·) htext, by rwa [slashes_plain h]⟩

/-- The backslash of an escape is in escape position, the character behind it is not. -/
theorem escapeAt_escape :
    EscapeAt ('\\' :: c :: r) before after ↔ before = [] ∧ after = c :: r ∨
      ∃ u, before = ['\\', c] ++ u ∧ EscapeAt r u after := by
  constructor
  · rintro ⟨htext, heven⟩
    obtain _ | ⟨d, _ | ⟨d', u⟩⟩ := before
    · exact .inl ⟨rfl, (List.cons.inj htext).2.symm⟩
    · obtain ⟨rfl, -⟩ := List.cons.inj htext
      exact absurd heven (by decide)
    · obtain ⟨hd, hrest⟩ := List.cons.inj htext
      obtain ⟨hd', hr⟩ := List.cons.inj hrest
      subst hd hd'
      exact .inr ⟨u, rfl, hr, even_slashes_escape.1 heven⟩
  · rintro (⟨rfl, rfl⟩ | ⟨u, rfl, htext, heven⟩)
    · exact ⟨rfl, by decide⟩
    · exact ⟨congrArg (['\\', c] ++ ·) htext, even_slashes_escape.2 heven⟩

/-- The pattern of literals leaves no backslash in escape position at the end. -/
theorem after_ne_nil (h : StringBody body) (hat : EscapeAt body before after) : after ≠ [] := by
  induction h generalizing before with
  | nil => simpa using hat.text
  | plain _ hslash _ _ ih =>
    obtain ⟨u, -, hu⟩ := (escapeAt_plain hslash).1 hat
    exact ih hu
  | escape _ _ ih =>
    rcases escapeAt_escape.1 hat with ⟨-, rfl⟩ | ⟨u, -, hu⟩
    · exact List.cons_ne_nil _ _
    · exact ih hu

/-! ## Refusals -/

theorem escapes_plain (h : c ≠ '\\') :
    Escapes (c :: r) before e ↔ ∃ u, before = [c] ++ u ∧ Escapes r u e := by
  constructor
  · rintro ⟨after, hat⟩
    obtain ⟨u, hu, hr⟩ := (escapeAt_plain h).1 hat
    exact ⟨u, hu, after, hr⟩
  · rintro ⟨u, hu, after, hr⟩
    exact ⟨after, (escapeAt_plain h).2 ⟨u, hu, hr⟩⟩

theorem escapes_escape :
    Escapes ('\\' :: c :: r) before e ↔ before = [] ∧ e = c ∨
      ∃ u, before = ['\\', c] ++ u ∧ Escapes r u e := by
  constructor
  · rintro ⟨after, hat⟩
    rcases escapeAt_escape.1 hat with ⟨hnil, hafter⟩ | ⟨u, hu, hr⟩
    · exact .inl ⟨hnil, (List.cons.inj hafter).1⟩
    · exact .inr ⟨u, hu, after, hr⟩
  · rintro (⟨hnil, rfl⟩ | ⟨u, hu, after, hr⟩)
    · exact ⟨r, escapeAt_escape.2 (.inl ⟨hnil, rfl⟩)⟩
    · exact ⟨after, escapeAt_escape.2 (.inr ⟨u, hu, hr⟩)⟩

theorem refused_plain (h : c ≠ '\\') : Refused (c :: r) e ↔ Refused r e :=
  first_iff_of_behind fun _ _ => escapes_plain h

theorem refused_escape :
    Refused ('\\' :: c :: r) e ↔ c ∉ letters ∧ e = c ∨ ¬c ∉ letters ∧ Refused r e :=
  first_iff_of_front (List.cons_ne_nil '\\' [c]) fun _ _ => escapes_escape

theorem cook_eq_error_iff (h : StringBody body) : cook body = .error e ↔ Refused body e := by
  induction h with
  | nil =>
    have hnone : ¬Refused [] e := not_first_of_not_at fun _ _ ⟨_, h⟩ => by simpa using h.text
    simp [cook, hnone]
  | plain _ hslash _ _ ih => rw [cook_plain hslash, map_eq_error, ih, refused_plain hslash]
  | @escape c r _ _ ih =>
    rw [refused_escape]
    cases hc : escaped? c with
    | none => simp [cook_wrong hc, escaped?_eq_none.1 hc, eq_comm]
    | some d =>
      have hmem : c ∈ letters := by
        by_contra hmem
        rw [escaped?_eq_none.2 hmem] at hc
        cases hc
      simp [cook_escape hc, hmem, ih]

end Literal

open Literal

variable {line : Nat} {c e : Char} {r body rest : List Char}

/-! ## Literals in a source -/

theorem lexeme_of_cook {value : List Char} (h : StringBody body) (hcook : cook body = .ok value)
    (rest : List Char) : lexeme '"' (body ++ '"' :: rest) =
      .ok ⟨.str (String.ofList value), '"' :: body ++ ['"'], rest⟩ := by
  rw [lexeme, if_neg (by decide), if_neg (by decide), if_pos rfl,
    Lexer.stringBody?_eq_some.2 ⟨h, rfl⟩]
  simp only [hcook]

theorem lexeme_of_not_cook (h : StringBody body) (hcook : cook body = .error e)
    (rest : List Char) : lexeme '"' (body ++ '"' :: rest) = .error (.invalidEscape e) := by
  rw [lexeme, if_neg (by decide), if_neg (by decide), if_pos rfl,
    Lexer.stringBody?_eq_some.2 ⟨h, rfl⟩]
  simp only [hcook]

theorem lexeme_invalidEscape_iff : lexeme '"' r = .error (.invalidEscape e) ↔
    ∃ body rest, StringBody body ∧ r = body ++ '"' :: rest ∧ Refused body e := by
  constructor
  · intro h
    cases hbody : Lexer.stringBody? r with
    | none =>
      rw [lexeme, if_neg (by decide), if_neg (by decide), if_pos rfl, hbody] at h
      cases h
    | some p =>
      obtain ⟨hpattern, rfl⟩ := Lexer.stringBody?_eq_some.1 hbody
      cases hcook : cook p.1 with
      | ok value =>
        rw [lexeme_of_cook hpattern hcook] at h
        cases h
      | error e' =>
        rw [lexeme_of_not_cook hpattern hcook] at h
        cases h
        exact ⟨p.1, p.2, hpattern, rfl, (cook_eq_error_iff hpattern).1 hcook⟩
  · rintro ⟨body, rest, hpattern, rfl, hrefused⟩
    exact lexeme_of_not_cook hpattern ((cook_eq_error_iff hpattern).2 hrefused) rest

theorem lex_encode (x : String) :
    lex (encode x) = .ok [⟨.str x, encode x, 1⟩, ⟨.eof, "", 1⟩] := by
  have hlexeme := lexeme_of_cook (stringBody_writeBody x.toList) (cook_writeBody x.toList) []
  rw [lex, encode, String.toList_ofList, List.cons_append,
    Lexer.lexFrom_token (by decide) (by decide) (fun h => absurd h.1 (by decide)) hlexeme,
    lexFrom, String.ofList_toList]
  rfl

/-- A string token is a body between quotes, and the text that the body stands for. -/
theorem exists_body_of_lex {source x : String} {ts : List Token} {t : Token}
    (h : lex source = .ok ts) (ht : t ∈ ts) (hkind : t.kind = .str x) :
    ∃ body, StringBody body ∧ t.text.toList = '"' :: body ++ ['"'] ∧
      cook body = .ok x.toList := by
  obtain ⟨pieces, last, hlaid, -, rfl⟩ := Lexer.lexFrom_reads h
  rcases List.mem_append.1 ht with ht | ht
  · obtain ⟨⟨gap, t⟩, hpiece, rfl⟩ := List.mem_map.1 ht
    obtain ⟨before, after, rfl⟩ := List.append_of_mem hpiece
    obtain ⟨-, -, hprescribed, -⟩ := hlaid.piece
    rw [hkind] at hprescribed
    generalize t.text.toList = text at hprescribed
    cases hprescribed with
    | string hbody hcook => exact ⟨_, hbody, rfl, by rw [hcook, String.toList_ofList]⟩
  · rw [List.mem_singleton.1 ht] at hkind
    cases hkind

/-- Writing a text as a literal and reading it gives the text again, and so does writing
what any literal of a source stands for. A literal is refused for the first escape in it
that is none, and no body ends in half an escape. -/
theorem literals_round_trip :
    (∀ x, lex (encode x) = .ok [⟨.str x, encode x, 1⟩, ⟨.eof, "", 1⟩]) ∧
    (∀ source ts t x, lex source = .ok ts → t ∈ ts → t.kind = .str x →
      (∃ body, StringBody body ∧ t.text.toList = '"' :: body ++ ['"'] ∧
        cook body = .ok x.toList) ∧
      lex (encode x) = .ok [⟨t.kind, encode x, 1⟩, ⟨.eof, "", 1⟩]) ∧
    (∀ r e, lexeme '"' r = .error (.invalidEscape e) ↔
      ∃ body rest, StringBody body ∧ r = body ++ '"' :: rest ∧ Refused body e) ∧
    ∀ body, StringBody body →
      (∀ before after, EscapeAt body before after → after ≠ []) ∧
      ((∃ e, cook body = .error e) ↔
        ∃ before e after, EscapeAt body before (e :: after) ∧ e ∉ letters) ∧
      ∀ e, cook body = .error e ↔ Refused body e := by
  refine ⟨lex_encode, fun source ts t x h ht hkind => ?_, fun _ _ => lexeme_invalidEscape_iff,
    fun body hbody => ⟨fun _ _ => after_ne_nil hbody, ?_, fun _ => cook_eq_error_iff hbody⟩⟩
  · exact ⟨exists_body_of_lex h ht hkind, hkind ▸ lex_encode x⟩
  · simp only [cook_eq_error_iff hbody, Refused, exists_first_iff, Escapes, exists_and_right]

/-- Escapes between backslashes and quotes, as they are written and as they are read, and
an escape that is none behind one that is a backslash. -/
theorem literals_round_trip_slashes :
    lex "\"\\\\\\\"\\n\" // \"" =
      .ok [⟨.str "\\\"\n", "\"\\\\\\\"\\n\"", 1⟩, ⟨.eof, "", 1⟩] ∧
    lex (encode "\\\"\n") = .ok [⟨.str "\\\"\n", encode "\\\"\n", 1⟩, ⟨.eof, "", 1⟩] ∧
    Refused "\\\\q\\\\\\q\\x".toList 'q' := by
  have hlex : lex "\"\\\\\\\"\\n\" // \"" =
      .ok [⟨.str "\\\"\n", "\"\\\\\\\"\\n\"", 1⟩, ⟨.eof, "", 1⟩] := by cbv
  have hquote : Lexer.stringBody? "\\\\q\\\\\\q\\x\"".toList =
      some ("\\\\q\\\\\\q\\x".toList, []) := by cbv
  have hbody := (Lexer.stringBody?_eq_some.1 hquote).1
  obtain ⟨-, hread, -, hrefused⟩ := literals_round_trip
  refine ⟨hlex, (hread _ _ _ _ hlex List.mem_cons_self rfl).2, ?_⟩
  exact ((hrefused _ hbody).2.2 'q').1 (by cbv)

end HeapScript
