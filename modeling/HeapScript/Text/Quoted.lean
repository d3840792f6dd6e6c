import HeapScript.Text.Shown

/-!
# Quoted text

Error messages quote strings: between double quotes, with the quote, the
backslash and four control characters behind a backslash, and every other
character that cannot be shown as its code point in braces.

* `quote` is the whole form; `escape` is one character of it.
-/

namespace HeapScript.Text

/-- The letter that stands behind a backslash for a character, if it has one. -/
def shortEscape? : Char → Option Char
  | '"' => some '"'
  | '\\' => some '\\'
  | '\n' => some 'n'
  | '\r' => some 'r'
  | '\t' => some 't'
  | '\x00' => some '0'
  | _ => none

/-- The lower-case hexadecimal digits of a number. -/
def hexDigits (n : Nat) : String :=
  String.ofList (Nat.toDigits 16 n)

/-- One character of a quoted text. -/
def escape (c : Char) : String :=
  match shortEscape? c with
  | some e => String.ofList ['\\', e]
  | none =>
    if isShown c then c.toString else "\\u\x7b" ++ hexDigits c.toNat ++ "\x7d"

/-- The text between double quotes, fit to be read off a single line. -/
def quote (s : String) : String :=
  "\"" ++ String.join (s.toList.map escape) ++ "\""

end HeapScript.Text
