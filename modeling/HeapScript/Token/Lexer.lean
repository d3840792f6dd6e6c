import HeapScript.Token.Basic
import HeapScript.Token.Literal

/-!
# From text to tokens

A source text is a sequence of tokens with gaps between them: blanks, line
breaks, and comments that reach to the end of their line. The next token is
always the longest one that the remaining text starts with.

* `lexeme` reads the token at the front of a text that does not start with a gap.
* `lexFrom` reads all tokens and counts lines; it ends because every lexeme and
  every gap is at least one character long.
* `lex` is the list of tokens of a source, closed by an end-of-file token.
-/

namespace HeapScript

/-- Why a text is no sequence of tokens. -/
inductive LexFault where
  | unterminatedString
  | invalidEscape (c : Char)
  | unexpectedChar (c : Char)
  deriving DecidableEq, Repr

/-- The words of a fault. -/
def LexFault.message : LexFault → String
  | unterminatedString => "unterminated string literal"
  | invalidEscape c => "invalid escape sequence `\\" ++ c.toString ++ "` in string literal"
  | unexpectedChar c => "unexpected character `" ++ c.toString ++ "`"

/-- A fault and the line it is on. -/
structure LexError where
  fault : LexFault
  line : Nat
  deriving DecidableEq, Repr

/-- The fault's words with its line. -/
def LexError.message (e : LexError) : String :=
  e.fault.message ++ " (line " ++ toString e.line ++ ")"

namespace Lexer

/-- A blank between tokens, other than a line break. -/
def isGap (c : Char) : Bool :=
  c == ' ' || c == '\t' || c == '\r' || c == '\x0c'

/-- A letter that a name may start with. -/
def isNameStart (c : Char) : Bool :=
  c.isAlpha || c == '_'

/-- A character that a name may go on with. -/
def isNameRest (c : Char) : Bool :=
  c.isAlphanum || c == '_'

/-- A token at the front of a text, its characters, and what follows them. -/
structure Lexeme where
  kind : TokenKind
  text : List Char
  rest : List Char

/-- The body of a string literal up to its closing quote, and what follows that.
There is none if the line or the text ends first. -/
def stringBody? : List Char → Option (List Char × List Char)
  | [] => none
  | '"' :: r => some ([], r)
  | '\n' :: _ => none
  | '\\' :: c :: r =>
    if c = '\n' then none
    else (stringBody? r).map fun (body, rest) => ('\\' :: c :: body, rest)
  | c :: r => (stringBody? r).map fun (body, rest) => (c :: body, rest)

/-- The characters of the number literal at the front of a text, and what follows
them. A point belongs to the literal only if a digit comes next. -/
def numberText (cs : List Char) : List Char × List Char :=
  let whole := cs.takeWhile Char.isDigit
  match cs.dropWhile Char.isDigit with
  | '.' :: d :: r =>
    if d.isDigit then
      (whole ++ '.' :: (d :: r).takeWhile Char.isDigit, (d :: r).dropWhile Char.isDigit)
    else (whole, '.' :: d :: r)
  | rest => (whole, rest)

/-- A name, or the reserved word it spells. -/
def word (cs : List Char) : TokenKind :=
  let name := String.ofList cs
  match Keyword.ofSpelling? name with
  | some k => .symbol (.keyword k)
  | none => .ident name

/-- The symbol at the front of a text, of two characters if there is such a one. -/
def symbol? : List Char → Option (Symbol × List Char × List Char)
  | [] => none
  | [a] => (Symbol.ofSpelling? [a]).map fun s => (s, [a], [])
  | a :: b :: r =>
    match Symbol.ofSpelling? [a, b] with
    | some s => some (s, [a, b], r)
    | none => (Symbol.ofSpelling? [a]).map fun s => (s, [a], b :: r)

/-- The token at the front of a text. -/
def lexeme (c : Char) (r : List Char) : Except LexFault Lexeme :=
  if isNameStart c then
    let text := c :: r.takeWhile isNameRest
    .ok ⟨word text, text, r.dropWhile isNameRest⟩
  else if c.isDigit then
    let (text, rest) := numberText (c :: r)
    .ok ⟨.num (Literal.numberValue text), text, rest⟩
  else if c = '"' then
    match stringBody? r with
    | none => .error .unterminatedString
    | some (body, rest) =>
      match Literal.cook body with
      | .error e => .error (.invalidEscape e)
      | .ok value => .ok ⟨.str (String.ofList value), '"' :: body ++ ['"'], rest⟩
  else
    match symbol? (c :: r) with
    | some (s, text, rest) => .ok ⟨.symbol s, text, rest⟩
    | none => .error (.unexpectedChar c)

/-! ## Nothing is lost -/

theorem stringBody?_eq {cs body rest : List Char} (h : stringBody? cs = some (body, rest)) :
    cs = body ++ '"' :: rest := by
  fun_induction stringBody? cs generalizing body rest with
  | case1 => simp at h
  | case2 r => simp_all
  | case3 => simp at h
  | case4 => simp at h
  | case5 c r _ ih =>
    obtain ⟨⟨b, t⟩, hb, he⟩ := Option.map_eq_some_iff.1 h
    simp only [Prod.mk.injEq] at he
    simp [← he.1, ← he.2, ih hb]
  | case6 c r _ _ _ ih =>
    obtain ⟨⟨b, t⟩, hb, he⟩ := Option.map_eq_some_iff.1 h
    simp only [Prod.mk.injEq] at he
    simp [← he.1, ← he.2, ih hb]

theorem numberText_append (cs : List Char) : (numberText cs).1 ++ (numberText cs).2 = cs := by
  have h := List.takeWhile_append_dropWhile (p := Char.isDigit) (l := cs)
  unfold numberText
  split
  · rename_i d r hd
    rw [hd] at h
    split
    · rw [List.append_assoc, List.cons_append, List.takeWhile_append_dropWhile, h]
    · exact h
  · exact h

theorem symbol?_append {cs text rest : List Char} {s : Symbol}
    (h : symbol? cs = some (s, text, rest)) : text ++ rest = cs ∧ text ≠ [] := by
  unfold symbol? at h
  split at h
  · simp at h
  · obtain ⟨t, -, he⟩ := Option.map_eq_some_iff.1 h
    obtain ⟨-, rfl, rfl⟩ : _ ∧ _ ∧ _ := by simpa using he
    simp
  · split at h
    · obtain ⟨-, rfl, rfl⟩ : _ ∧ _ ∧ _ := by simpa using h
      simp
    · obtain ⟨t, -, he⟩ := Option.map_eq_some_iff.1 h
      obtain ⟨-, rfl, rfl⟩ : _ ∧ _ ∧ _ := by simpa using he
      simp

/-- A lexeme and what follows it make up the text it was read from. -/
theorem lexeme_append {c : Char} {r : List Char} {l : Lexeme} (h : lexeme c r = .ok l) :
    l.text ++ l.rest = c :: r := by
  unfold lexeme at h
  split at h
  · simp only [Except.ok.injEq] at h
    simp [← h]
  split at h
  · simp only [Except.ok.injEq] at h
    simp [← h, numberText_append]
  split at h
  · split at h
    · simp at h
    · rename_i hc _ _ _ hb
      split at h
      · simp at h
      · simp only [Except.ok.injEq] at h
        simp [← h, stringBody?_eq hb, hc]
  · split at h
    · rename_i hs
      simp only [Except.ok.injEq] at h
      simp [← h, (symbol?_append hs).1]
    · simp at h

theorem numberText_ne_nil {c : Char} {r : List Char} (h : c.isDigit) :
    (numberText (c :: r)).1 ≠ [] := by
  unfold numberText
  split
  · split <;> simp [h]
  · simp [h]

theorem lexeme_text_ne_nil {c : Char} {r : List Char} {l : Lexeme} (h : lexeme c r = .ok l) :
    l.text ≠ [] := by
  unfold lexeme at h
  split at h
  · simp only [Except.ok.injEq] at h
    simp [← h]
  split at h
  · rename_i hd
    simp only [Except.ok.injEq] at h
    simp [← h, numberText_ne_nil hd]
  split at h
  · split at h
    · simp at h
    · split at h
      · simp at h
      · simp only [Except.ok.injEq] at h
        simp [← h]
  · split at h
    · rename_i hs
      simp only [Except.ok.injEq] at h
      simp [← h, (symbol?_append hs).2]
    · simp at h

/-- A lexeme is at least one character long. -/
theorem lexeme_rest_length {c : Char} {r : List Char} {l : Lexeme} (h : lexeme c r = .ok l) :
    l.rest.length < (c :: r).length := by
  have ht := List.length_pos_iff.2 (lexeme_text_ne_nil h)
  rw [← lexeme_append h, List.length_append]
  omega

/-! ## Whole texts -/

/-- The text from the end of the current line on. -/
def skipLine (cs : List Char) : List Char :=
  cs.dropWhile (· != '\n')

/-- All tokens of a text whose first character stands on the given line. -/
def lexFrom (line : Nat) (cs : List Char) : Except LexError (List Token) :=
  match cs with
  | [] => .ok [⟨.eof, "", line⟩]
  | c :: r =>
    if c = '\n' then lexFrom (line + 1) r
    else if isGap c then lexFrom line r
    else if c = '/' ∧ r.head? = some '/' then lexFrom line (skipLine r)
    else
      match _h : lexeme c r with
      | .error fault => .error ⟨fault, line⟩
      | .ok l => (lexFrom line l.rest).map (⟨l.kind, String.ofList l.text, line⟩ :: ·)
termination_by cs.length
decreasing_by
  · simp
  · simp
  · simpa [skipLine, Nat.lt_succ_iff] using (List.dropWhile_sublist (· != '\n')).length_le
  · exact lexeme_rest_length _h

end Lexer

/-- The tokens of a source text, with an end-of-file token last. -/
def lex (source : String) : Except LexError (List Token) :=
  Lexer.lexFrom 1 source.toList

end HeapScript
