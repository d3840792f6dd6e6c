import HeapScript.Decimal.Numeral

/-!
# Literals

The characters inside a string literal, and the value of a number literal.

* `cook` resolves the escapes of a string body, or names the first character
  that may not follow a backslash.
* `writeBody` is the string body that `cook` resolves to a given text.
* `numberValue` is the float nearest to a decimal literal.
-/

namespace HeapScript.Literal

/-- The character that an escape letter stands for. -/
def escaped? : Char → Option Char
  | 'n' => some '\n'
  | 't' => some '\t'
  | 'r' => some '\r'
  | '0' => some '\x00'
  | '\\' => some '\\'
  | '"' => some '"'
  | _ => none

/-- The text that a string body stands for, or the first character that follows
a backslash and is no escape letter. -/
def cook : List Char → Except Char (List Char)
  | [] => .ok []
  | ['\\'] => .ok ['\\']
  | '\\' :: e :: r =>
    match escaped? e with
    | none => .error e
    | some c => (cook r).map (c :: ·)
  | c :: r => (cook r).map (c :: ·)

/-- The string body of one character. -/
def writeChar : Char → List Char
  | '\n' => ['\\', 'n']
  | '\t' => ['\\', 't']
  | '\r' => ['\\', 'r']
  | '\x00' => ['\\', '0']
  | '\\' => ['\\', '\\']
  | '"' => ['\\', '"']
  | c => [c]

/-- The string body of a text. -/
def writeBody (cs : List Char) : List Char :=
  cs.flatMap writeChar

/-- The value of a number literal: digits, or digits around a point. -/
def numberValue (cs : List Char) : Float :=
  let whole := cs.takeWhile Char.isDigit
  let fraction := (cs.dropWhile Char.isDigit).drop 1
  Decimal.ofParts whole fraction 0

end HeapScript.Literal
