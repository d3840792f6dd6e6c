import HeapScript.Token.Lexer

/-!
# Parsers

A parser reads from the front of a list of tokens and leaves the rest, or stops
with an error that names the token it stands at. The list ends in an end-of-file
token, which no parser takes away.

* `expect`, `eat` and `expectIdent` are the only steps that take a token.
* `unlessAt` and `behind` read parts that may be missing.
* `ParseError` carries the cause and the line of the token at fault.
-/

namespace HeapScript

/-- What was wanted where another token stands. -/
inductive Expected where
  | symbol (s : Symbol)
  | identifier

/-- The wanted token in words. -/
def Expected.describe : Expected → String
  | symbol s => "`" ++ s.spelling ++ "`"
  | identifier => "an identifier"

/-- Why a list of tokens is no program. -/
inductive ParseFault where
  | unexpectedToken (expected : Expected) (found : TokenKind)
  | expectedExpression (found : TokenKind)
  | expectedType (found : TokenKind)
  | malformedFor

/-- The words of a fault. -/
def ParseFault.message : ParseFault → String
  | unexpectedToken expected found =>
    "expected " ++ expected.describe ++ ", found " ++ found.describe
  | expectedExpression found => "expected an expression, found " ++ found.describe
  | expectedType found => "expected a type, found " ++ found.describe
  | malformedFor => "`for` takes exactly three clauses separated by `;`"

/-- A fault and the line of the token at which it was found. -/
structure ParseError where
  fault : ParseFault
  line : Nat

/-- The fault's words with its line. -/
def ParseError.message (e : ParseError) : String :=
  e.fault.message ++ " (line " ++ toString e.line ++ ")"

/-- A parser of `α`s. -/
abbrev Parser (α : Type) := StateT (List Token) (Except ParseError) α

namespace Parser

variable {α : Type}

/-- The token at the front. A list that does not end in end-of-file is taken to. -/
def front : List Token → Token
  | [] => ⟨.eof, "", 0⟩
  | t :: _ => t

/-- The kind of the token that stands some places behind the front. -/
def kindAt (toks : List Token) (offset : Nat) : TokenKind :=
  (front (toks.drop offset)).kind

/-- Whether the front token is the given symbol. -/
def at? (s : Symbol) (toks : List Token) : Bool :=
  (front toks).kind.isSymbol s

/-- The kind of the front token, which stays. -/
def peek : Parser TokenKind := fun toks =>
  .ok ((front toks).kind, toks)

/-- The line of the front token, which stays. -/
def line : Parser Nat := fun toks =>
  .ok ((front toks).line, toks)

/-- Whether the front token is the given symbol. The token stays. -/
def check (s : Symbol) : Parser Bool := fun toks =>
  .ok (at? s toks, toks)

/-- Stops at the front token. -/
def fail (fault : TokenKind → ParseFault) : Parser α := fun toks =>
  .error ⟨fault (front toks).kind, (front toks).line⟩

/-- Takes the front token if it is the given symbol. -/
def eat (s : Symbol) : Parser Bool := fun toks =>
  if at? s toks then .ok (true, toks.tail) else .ok (false, toks)

/-- Takes the given symbol, which must be at the front. -/
def expect (s : Symbol) : Parser Unit := fun toks =>
  if at? s toks then .ok ((), toks.tail)
  else fail (.unexpectedToken (.symbol s)) toks

/-- Takes the name at the front. -/
def expectIdent : Parser String := fun toks =>
  match (front toks).kind with
  | .ident name => .ok (name, toks.tail)
  | _ => fail (.unexpectedToken .identifier) toks

/-- A part that is missing where the given symbol stands in its place. -/
def unlessAt (s : Symbol) (p : Parser α) : Parser (Option α) := do
  if ← check s then return none
  else some <$> p

/-- A part that the given symbol announces. -/
def behind (s : Symbol) (p : Parser α) : Parser (Option α) := do
  if ← eat s then some <$> p
  else return none

/-! ## Symbols that parsers ask for -/

abbrev kw (k : Keyword) : Symbol := .keyword k
abbrev delim (d : Delimiter) : Symbol := .delimiter d

end Parser

end HeapScript
