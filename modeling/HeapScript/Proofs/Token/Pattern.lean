import HeapScript.Token.Lexer
import Mathlib

/-!
# Token patterns

The texts that a source is made of, pattern by pattern, and which of them the lexer
takes.

* `Trivia` holds of what stands between tokens, `Matched` of all that some pattern
  matches: trivia, the symbols by their spelling, numbers, strings and names.
* `Longest` is the rule that the longest matched text at the front is taken, and
  `Prescribed` the kind of token that a text is: a name is an identifier unless it
  spells a reserved word.
* `longest_of_lexeme` and `prescribed_of_lexeme`: the lexer takes the longest one and
  gives it its kind.
-/

namespace HeapScript

namespace Symbol

theorem keyword_or_mem_punctuation (s : Symbol) :
    (∃ k, s = .keyword k) ∨ s ∈ punctuation := by
  cases s with
  | keyword k => exact .inl ⟨k, rfl⟩
  | delimiter d => simp [punctuation, d.mem_all]
  | operator op => simp [punctuation, op.mem_all]
  | assign op => cases op <;> simp [punctuation, AssignOp.all]
  | bang => simp [punctuation]
  | tilde => simp [punctuation]

theorem ofSpelling?_eq_some {cs : List Char} {s : Symbol} :
    ofSpelling? cs = some s ↔ s ∈ punctuation ∧ s.spelling.toList = cs := by
  constructor
  · intro h
    exact ⟨List.mem_of_find?_eq_some h, by simpa using List.find?_some h⟩
  · rintro ⟨hs, rfl⟩
    have hall : ∀ s ∈ punctuation, ofSpelling? s.spelling.toList = some s := by decide
    exact hall s hs

theorem length_punctuation {s : Symbol} (hs : s ∈ punctuation) :
    s.spelling.toList.length = 1 ∨ s.spelling.toList.length = 2 := by
  revert s
  decide

end Symbol

namespace Lexer

/-! ## Characters -/

/-- A letter or an underscore. -/
def Letter (c : Char) : Prop :=
  ('a' ≤ c ∧ c ≤ 'z') ∨ ('A' ≤ c ∧ c ≤ 'Z') ∨ c = '_'

def Digit (c : Char) : Prop :=
  '0' ≤ c ∧ c ≤ '9'

/-- A blank that is no line break. -/
def Blank (c : Char) : Prop :=
  c ∈ [' ', '\t', '\r', '\x0c']

theorem isGap_iff {c : Char} : isGap c ↔ Blank c := by
  simp [isGap, Blank, or_assoc]

theorem isDigit_iff {c : Char} : c.isDigit ↔ Digit c := by
  simp [Char.isDigit, Digit, Char.le_def]

theorem isNameStart_iff {c : Char} : isNameStart c ↔ Letter c := by
  simp only [isNameStart, Char.isAlpha, Char.isUpper, Char.isLower, Letter, Char.le_def,
    Bool.or_eq_true, Bool.and_eq_true, decide_eq_true_eq, beq_iff_eq, ge_iff_le]
  rw [or_comm (a := 'A'.val ≤ c.val ∧ _), or_assoc]

instance (c : Char) : Decidable (Letter c) := decidable_of_iff _ isNameStart_iff

instance (c : Char) : Decidable (Digit c) := decidable_of_iff _ isDigit_iff

instance (c : Char) : Decidable (Blank c) := decidable_of_iff _ isGap_iff

theorem isNameRest_iff {c : Char} : isNameRest c ↔ Letter c ∨ Digit c := by
  rw [← isNameStart_iff, ← isDigit_iff, isNameRest, isNameStart, Char.isAlphanum]
  simp only [Bool.or_eq_true]
  rw [or_right_comm]

theorem Digit.not_letter {c : Char} (h : Digit c) : ¬Letter c := by
  simp only [Letter, Digit, Char.le_def, UInt32.le_iff_toNat_le] at h ⊢
  rintro (⟨hlow, -⟩ | ⟨hlow, -⟩ | rfl)
  · simp at h hlow
    omega
  · simp at h hlow
    omega
  · simp at h

/-! ## Patterns -/

/-- `[a-zA-Z_][a-zA-Z0-9_]*` -/
def NameText : List Char → Prop
  | [] => False
  | c :: r => Letter c ∧ ∀ d ∈ r, Letter d ∨ Digit d

/-- `[0-9]+` -/
def Digits (cs : List Char) : Prop :=
  cs ≠ [] ∧ ∀ c ∈ cs, Digit c

/-- `[0-9]+(\.[0-9]+)?` -/
inductive NumberText : List Char → Prop
  | whole {cs : List Char} : Digits cs → NumberText cs
  | point {cs ds : List Char} : Digits cs → Digits ds → NumberText (cs ++ '.' :: ds)

/-- `([^"\\\n]|\\.)*` -/
inductive StringBody : List Char → Prop
  | nil : StringBody []
  | plain {c : Char} {r : List Char} : c ≠ '"' → c ≠ '\\' → c ≠ '\n' → StringBody r →
    StringBody (c :: r)
  | escape {c : Char} {r : List Char} : c ≠ '\n' → StringBody r → StringBody ('\\' :: c :: r)

/-- The texts that are no tokens: `[ \t\r\f]+`, `//[^\n]*` and `\n`. -/
inductive Trivia : List Char → Prop
  | blank {cs : List Char} : cs ≠ [] → (∀ c ∈ cs, Blank c) → Trivia cs
  | comment {body : List Char} : '\n' ∉ body → Trivia ('/' :: '/' :: body)
  | newline : Trivia ['\n']

/-- The texts that a pattern matches. -/
inductive Matched : List Char → Prop
  | trivia {cs : List Char} : Trivia cs → Matched cs
  | symbol (s : Symbol) : Matched s.spelling.toList
  | number {cs : List Char} : NumberText cs → Matched cs
  | string {body : List Char} : StringBody body → Matched ('"' :: body ++ ['"'])
  | name {cs : List Char} : NameText cs → Matched cs

/-- The second text is the longest one at the front of the first that a pattern
matches. -/
structure Longest (cs t : List Char) : Prop where
  matched : Matched t
  front : t <+: cs
  maximal (u : List Char) : Matched u → u <+: cs → u.length ≤ t.length

/-- The kind of token that a text is. -/
inductive Prescribed : List Char → TokenKind → Prop
  | symbol (s : Symbol) : Prescribed s.spelling.toList (.symbol s)
  | number {cs : List Char} : NumberText cs → Prescribed cs (.num (Literal.numberValue cs))
  | string {body value : List Char} : StringBody body → Literal.cook body = .ok value →
    Prescribed ('"' :: body ++ ['"']) (.str (String.ofList value))
  | name {cs : List Char} : NameText cs → (∀ k : Keyword, k.spelling.toList ≠ cs) →
    Prescribed cs (.ident (String.ofList cs))

theorem Prescribed.matched {t : List Char} {kind : TokenKind} (h : Prescribed t kind) :
    Matched t := by
  cases h with
  | symbol s => exact .symbol s
  | number h => exact .number h
  | string h _ => exact .string h
  | name h _ => exact .name h

/-! ## How a matched text starts -/

variable {c : Char} {r u t rest : List Char}

instance : DecidablePred NameText
  | [] => isFalse id
  | c :: r => decidable_of_iff (isNameStart c && r.all isNameRest) (by
      simp only [Bool.and_eq_true, List.all_eq_true, isNameStart_iff, isNameRest_iff, NameText])

theorem nameText_keyword (k : Keyword) : NameText k.spelling.toList := by
  cases k <;> decide

theorem NumberText.digit (h : NumberText (c :: u)) : Digit c := by
  generalize ht : c :: u = t at h
  cases h with
  | whole h =>
    subst ht
    exact h.2 c List.mem_cons_self
  | @point cs _ h _ =>
    obtain _ | ⟨d, cs⟩ := cs
    · exact absurd rfl h.1
    · obtain ⟨rfl, -⟩ := List.cons.inj ht
      exact h.2 c List.mem_cons_self

/-- The pattern that matches a text which is no trivia shows in the first character. -/
inductive Starts (c : Char) (u : List Char) : Prop
  | name : Letter c → NameText (c :: u) → Starts c u
  | number : Digit c → NumberText (c :: u) → Starts c u
  | string (body : List Char) : c = '"' → StringBody body → u = body ++ ['"'] → Starts c u
  | symbol (s : Symbol) : ¬Letter c → ¬Digit c → c ≠ '"' → s ∈ Symbol.punctuation →
    s.spelling.toList = c :: u → Starts c u

theorem punctuation_head {s : Symbol} (hs : s ∈ Symbol.punctuation)
    (ht : s.spelling.toList = c :: u) : ¬Letter c ∧ ¬Digit c ∧ c ≠ '"' := by
  have hhead : ∀ s ∈ Symbol.punctuation, s.spelling.toList.head?.all (fun c =>
      decide (¬Letter c ∧ ¬Digit c ∧ c ≠ '"')) = true := by decide
  have hc := hhead s hs
  rw [ht, List.head?_cons, Option.all_some] at hc
  exact of_decide_eq_true hc

theorem starts_symbol {s : Symbol} (ht : s.spelling.toList = c :: u) : Starts c u := by
  rcases s.keyword_or_mem_punctuation with ⟨k, rfl⟩ | hs
  · have hname : NameText (c :: u) := ht ▸ nameText_keyword k
    exact .name hname.1 hname
  · obtain ⟨hletter, hdigit, hquote⟩ := punctuation_head hs ht
    exact .symbol s hletter hdigit hquote hs ht

theorem Matched.starts (h : Matched (c :: u)) (hno : ¬Trivia (c :: u)) : Starts c u := by
  generalize ht : c :: u = t at h
  cases h with
  | trivia h => exact absurd (ht ▸ h) hno
  | symbol s => exact starts_symbol ht.symm
  | number h => exact .number (ht ▸ h).digit (ht ▸ h)
  | string h =>
    obtain ⟨rfl, rfl⟩ := List.cons.inj ht
    exact .string _ rfl h rfl
  | name h =>
    subst ht
    exact .name h.1 h

theorem Matched.ne_nil (h : Matched t) : t ≠ [] := by
  rintro rfl
  generalize ht : [] = t at h
  cases h with
  | trivia h =>
    cases h with
    | blank h _ => exact h ht.symm
    | comment => cases ht
    | newline => cases ht
  | symbol s =>
    rcases s.keyword_or_mem_punctuation with ⟨k, rfl⟩ | hs
    · have hname : NameText (Symbol.keyword k).spelling.toList := nameText_keyword k
      rw [← ht] at hname
      exact hname
    · have hlength := Symbol.length_punctuation hs
      rw [← ht] at hlength
      simp at hlength
  | number h =>
    cases h with
    | whole h => exact h.1 ht.symm
    | point => simp at ht
  | string => cases ht
  | name h =>
    subst ht
    exact h

/-- A text that starts with a token. -/
def AtToken (cs : List Char) : Prop :=
  ∀ g, Trivia g → ¬g <+: cs

/-- A matched text at the front of one that starts with a token. -/
theorem AtToken.starts (h : AtToken (c :: r)) (hu : Matched u) (hfront : u <+: c :: r) :
    ∃ v, u = c :: v ∧ v <+: r ∧ Starts c v := by
  obtain _ | ⟨d, v⟩ := u
  · exact absurd rfl hu.ne_nil
  · obtain ⟨rfl, hv⟩ := List.cons_prefix_cons.1 hfront
    exact ⟨v, rfl, hv, hu.starts fun htrivia => h _ htrivia hfront⟩

/-! ## The longest match -/

theorem length_le_takeWhile {p : Char → Bool} (h : u <+: t) (hu : ∀ c ∈ u, p c) :
    u.length ≤ (t.takeWhile p).length := by
  obtain ⟨v, rfl⟩ := h
  rw [List.takeWhile_append_of_pos hu, List.length_append]
  exact Nat.le_add_right _ _

theorem Digits.isDigit (h : Digits u) : ∀ c ∈ u, c.isDigit := fun c hc =>
  isDigit_iff.2 (h.2 c hc)

theorem digits_takeWhile (hc : Digit c) : Digits ((c :: r).takeWhile Char.isDigit) := by
  refine ⟨?_, fun d hd => isDigit_iff.1 (List.mem_takeWhile_imp hd)⟩
  rw [List.takeWhile_cons_of_pos (isDigit_iff.2 hc)]
  exact List.cons_ne_nil _ _

theorem numberText_matched (hc : Digit c) : NumberText (numberText (c :: r)).1 := by
  rw [numberText]
  split
  · split
    · rename_i hd
      exact .point (digits_takeWhile hc) (digits_takeWhile (isDigit_iff.1 hd))
    · exact .whole (digits_takeWhile hc)
  · exact .whole (digits_takeWhile hc)

theorem length_takeWhile_le_numberText (cs : List Char) :
    (cs.takeWhile Char.isDigit).length ≤ (numberText cs).1.length := by
  rw [numberText]
  split
  · split
    · simp
    · exact Nat.le_refl _
  · exact Nat.le_refl _

theorem NumberText.length_le (h : NumberText u) (hfront : u <+: t) :
    u.length ≤ (numberText t).1.length := by
  cases h with
  | whole h =>
    exact Nat.le_trans (length_le_takeWhile hfront h.isDigit) (length_takeWhile_le_numberText t)
  | @point cs ds hcs hds =>
    obtain ⟨v, rfl⟩ := hfront
    obtain _ | ⟨d, ds⟩ := ds
    · exact absurd rfl hds.1
    · have hd : d.isDigit := hds.isDigit d List.mem_cons_self
      have hdot : ¬('.' : Char).isDigit := by decide
      have htake : (ds ++ v).takeWhile Char.isDigit = ds ++ v.takeWhile Char.isDigit :=
        List.takeWhile_append_of_pos fun c hc => hds.isDigit c (List.mem_cons_of_mem _ hc)
      simp [numberText, List.takeWhile_append_of_pos hcs.isDigit,
        List.dropWhile_append_of_pos hcs.isDigit, hd, htake]

theorem stringBody?_eq_some {body : List Char} :
    stringBody? t = some (body, rest) ↔ StringBody body ∧ t = body ++ '"' :: rest := by
  constructor
  · intro h
    refine ⟨?_, stringBody?_eq h⟩
    fun_induction stringBody? t generalizing body rest with
    | case1 => cases h
    | case2 r =>
      cases h
      exact .nil
    | case3 => cases h
    | case4 => cases h
    | case5 c r hc ih =>
      obtain ⟨⟨b, s⟩, hb, he⟩ := Option.map_eq_some_iff.1 h
      cases he
      exact .escape hc (ih hb)
    | case6 c r hquote hnewline hescape ih =>
      obtain ⟨⟨b, s⟩, hb, he⟩ := Option.map_eq_some_iff.1 h
      cases he
      refine .plain hquote ?_ hnewline (ih hb)
      rintro rfl
      obtain _ | ⟨d, r⟩ := r
      · cases hb
      · exact hescape d r rfl rfl
  · rintro ⟨h, rfl⟩
    induction h with
    | nil => rfl
    | plain hquote hslash hnewline _ ih => simp [stringBody?, *]
    | escape hnewline _ ih => simp [stringBody?, *]

theorem symbol?_eq_some {s : Symbol} (h : symbol? (c :: r) = some (s, t, rest)) :
    s ∈ Symbol.punctuation ∧ s.spelling.toList = t ∧
      ∀ s' ∈ Symbol.punctuation, s'.spelling.toList <+: c :: r →
        s'.spelling.toList.length ≤ t.length := by
  -- without a symbol of two characters at the front, one character is the longest
  have hshort (hone : ∀ s' ∈ Symbol.punctuation, s'.spelling.toList <+: c :: r →
      s'.spelling.toList.length ≠ 2) (s' : Symbol) (hs' : s' ∈ Symbol.punctuation)
      (hfront : s'.spelling.toList <+: c :: r) : s'.spelling.toList.length ≤ 1 := by
    have hlength := Symbol.length_punctuation hs'
    have htwo := hone s' hs' hfront
    omega
  rw [symbol?.eq_def] at h
  split at h
  · cases h
  · rename_i a hcs
    obtain ⟨s', hs', he⟩ := Option.map_eq_some_iff.1 h
    cases he
    obtain ⟨hmem, hspelling⟩ := Symbol.ofSpelling?_eq_some.1 hs'
    refine ⟨hmem, hspelling, hshort fun s' _ hfront hlength => ?_⟩
    have hle := hfront.length_le
    rw [hcs, hlength] at hle
    simp at hle
  · rename_i a b r' hcs
    split at h
    · rename_i s' hs'
      cases h
      obtain ⟨hmem, hspelling⟩ := Symbol.ofSpelling?_eq_some.1 hs'
      refine ⟨hmem, hspelling, fun s' hmem' _ => ?_⟩
      have hlength := Symbol.length_punctuation hmem'
      simp only [List.length_cons, List.length_nil]
      omega
    · rename_i hnone
      obtain ⟨s', hs', he⟩ := Option.map_eq_some_iff.1 h
      cases he
      obtain ⟨hmem, hspelling⟩ := Symbol.ofSpelling?_eq_some.1 hs'
      refine ⟨hmem, hspelling, hshort fun s' hmem' hfront hlength => ?_⟩
      have htwo : s'.spelling.toList = [a, b] := by
        rw [hcs] at hfront
        exact (List.prefix_iff_eq_take.1 hfront).trans (by rw [hlength]; rfl)
      rw [Symbol.ofSpelling?_eq_some.2 ⟨hmem', htwo⟩] at hnone
      cases hnone

/-! ## What the lexer takes -/

theorem prescribed_word (h : NameText t) : Prescribed t (word t) := by
  have hnone {k : Keyword} : k.spelling = String.ofList t ↔ k.spelling.toList = t := by
    rw [← String.toList_inj, String.toList_ofList]
  rw [word]
  split
  · rename_i k hk
    have hspelling : k.spelling = String.ofList t := by simpa using List.find?_some hk
    exact hnone.1 hspelling ▸ .symbol (.keyword k)
  · rename_i hk
    refine .name h fun k hk' => ?_
    have hne := List.find?_eq_none.1 hk k k.mem_all
    exact hne (by simpa using hnone.2 hk')

theorem prescribed_of_lexeme {l : Lexeme} (h : lexeme c r = .ok l) : Prescribed l.text l.kind := by
  rw [lexeme] at h
  split at h
  · rename_i hc
    cases h
    refine prescribed_word ⟨isNameStart_iff.1 hc, fun d hd => ?_⟩
    exact isNameRest_iff.1 (List.mem_takeWhile_imp hd)
  split at h
  · rename_i hc
    cases h
    exact .number (numberText_matched (isDigit_iff.1 hc))
  split at h
  · split at h
    · cases h
    · rename_i hbody
      split at h
      · cases h
      · rename_i hvalue
        cases h
        exact .string (stringBody?_eq_some.1 hbody).1 hvalue
  · split at h
    · rename_i hs
      cases h
      obtain ⟨-, rfl, -⟩ := symbol?_eq_some hs
      exact .symbol _
    · cases h

theorem maximal_of_lexeme {l : Lexeme} (h : lexeme c r = .ok l) (hstart : AtToken (c :: r))
    (hu : Matched u) (hfront : u <+: c :: r) : u.length ≤ l.text.length := by
  obtain ⟨v, rfl, hv, hstarts⟩ := hstart.starts hu hfront
  rw [lexeme] at h
  cases hstarts with
  | name hc hname =>
    rw [if_pos (isNameStart_iff.2 hc)] at h
    cases h
    exact Nat.succ_le_succ
      (length_le_takeWhile hv fun d hd => isNameRest_iff.2 (hname.2 d hd))
  | number hc hnumber =>
    rw [if_neg (isNameStart_iff.not.2 hc.not_letter), if_pos (isDigit_iff.2 hc)] at h
    cases h
    exact hnumber.length_le hfront
  | string body hc hbody hv' =>
    subst hc hv'
    obtain ⟨w, rfl⟩ := hv
    have hstring : stringBody? (body ++ ['"'] ++ w) = some (body, w) :=
      stringBody?_eq_some.2 ⟨hbody, by simp⟩
    rw [if_neg (by decide), if_neg (by decide), if_pos rfl, hstring] at h
    dsimp only at h
    split at h
    · cases h
    · cases h
      exact Nat.le_refl _
  | symbol s hletter hdigit hquote hs hspelling =>
    rw [if_neg (isNameStart_iff.not.2 hletter), if_neg (isDigit_iff.not.2 hdigit),
      if_neg hquote] at h
    split at h
    · rename_i hs'
      cases h
      rw [← hspelling] at hfront ⊢
      exact (symbol?_eq_some hs').2.2 s hs hfront
    · cases h

/-- The lexer takes the longest text at the front that a pattern matches. -/
theorem longest_of_lexeme {l : Lexeme} (h : lexeme c r = .ok l) (hstart : AtToken (c :: r)) :
    Longest (c :: r) l.text where
  matched := (prescribed_of_lexeme h).matched
  front := ⟨l.rest, lexeme_append h⟩
  maximal _ hu hfront := maximal_of_lexeme h hstart hu hfront

end Lexer

end HeapScript
