import HeapScript.Parser.Expression

/-!
# Statements and programs

Statements are read top down; the first tokens tell which kind stands at the
front.

* `statement` reads one statement with its terminator.
* `grammar` ties the nesting levels together. Its depth is the number of tokens
  and so never used up: every level takes at least one token.
* `parse` reads a whole program, `parseSource` straight from its text.
-/

namespace HeapScript

namespace Parser

/-- An expression lowered to postfix order, on the line it starts on. -/
def lowered (G : Grammar) (n : Nat) : Parser Expr := do
  let l ← line
  let t ← expression G n
  return t.lower l

/-- `[const] [alloc] [ref] TYPE NAME [= EXPR]` -/
def declaration (G : Grammar) (n : Nat) : Parser Stmt := do
  let l ← line
  let fs ← (fun toks => .ok (flags {} toks) : Parser DeclFlags)
  let ty ← type
  let name ← expectIdent
  let init ← behind (.assign .assign) (lowered G n)
  return .decl fs ty name init l

/-- An expression as a statement, on the line it starts on. -/
def expressionStmt (G : Grammar) (n : Nat) : Parser Stmt := do
  let l ← line
  let t ← expression G n
  return t.toStmt l

/-- A declaration or an expression as a statement, without the semicolon. -/
def simple (G : Grammar) (n : Nat) : Parser Stmt := fun toks =>
  if atDeclaration toks then declaration G n toks else expressionStmt G n toks

/-- The statements of a block up to and with the closing brace, at most so many. -/
def blockRest (stmt : Parser Stmt) : Nat → Parser (List Stmt)
  | 0 => fail (.unexpectedToken (.symbol (delim .rbrace)))
  | n + 1 => do
    if ← eat (delim .rbrace) then return []
    if (← peek) matches .eof then fail (.unexpectedToken (.symbol (delim .rbrace)))
    let s ← stmt
    return s :: (← blockRest stmt n)

/-- A condition in parentheses. -/
def condition (G : Grammar) (n : Nat) : Parser Expr := do
  expect (delim .lparen)
  let cond ← lowered G n
  expect (delim .rparen)
  return cond

/-- `if (COND) STMT [else STMT]`, behind the first word. -/
def ifRest (G : Grammar) (n : Nat) (l : Nat) : Parser Stmt := do
  let cond ← condition G n
  let thenBranch ← G.stmt
  let elseBranch ← behind (kw .elseThen) G.stmt
  return .ifThen cond thenBranch elseBranch l

/-- The semicolon between two clauses of a `for`. -/
def separator : Parser Unit := do
  if ← check (delim .rparen) then fail fun _ => .malformedFor
  expect (delim .semicolon)

/-- `for (INIT; COND; STEP) STMT`, each clause optional, behind the first word. -/
def forRest (G : Grammar) (n : Nat) (l : Nat) : Parser Stmt := do
  expect (delim .lparen)
  let init ← unlessAt (delim .semicolon) (simple G n)
  separator
  let cond ← unlessAt (delim .semicolon) (lowered G n)
  separator
  let step ← unlessAt (delim .rparen) (expressionStmt G n)
  expect (delim .rparen)
  let body ← G.stmt
  return .forLoop init cond step body l

/-- `return [EXPR];`, behind the word. -/
def returnRest (G : Grammar) (n : Nat) (l : Nat) : Parser Stmt := do
  let value ← unlessAt (delim .semicolon) (lowered G n)
  expect (delim .semicolon)
  return .returnValue value l

/-- `[closure] func NAME(PARAMS) [-> [ref] TYPE] BLOCK`: a constant of type `func`
that holds the function. -/
def functionDefinition (G : Grammar) (n : Nat) : Parser Stmt := do
  let l ← line
  let captures ← eat (kw .closure)
  expect (kw .func)
  let name ← expectIdent
  let f ← functionRest G n captures l
  return .decl { isConst := true } .func name (some ⟨[.instr (.function f)], l⟩) l

/-- One statement with its terminator. -/
def statement (G : Grammar) (n : Nat) : Parser Stmt := fun toks =>
  let l := (front toks).line
  match (front toks).kind with
  | .symbol (.delimiter .lbrace) =>
    (do return .block (← blockRest G.stmt n) l : Parser Stmt) toks.tail
  | .symbol (.keyword .ifThen) => ifRest G n l toks.tail
  | .symbol (.keyword .whileLoop) =>
    (do
      let cond ← condition G n
      let body ← G.stmt
      return .whileLoop cond body l : Parser Stmt) toks.tail
  | .symbol (.keyword .forLoop) => forRest G n l toks.tail
  | .symbol (.keyword .breakLoop) =>
    (do expect (delim .semicolon); return .breakLoop l : Parser Stmt) toks.tail
  | .symbol (.keyword .continueLoop) =>
    (do expect (delim .semicolon); return .continueLoop l : Parser Stmt) toks.tail
  | .symbol (.keyword .returnValue) => returnRest G n l toks.tail
  | .symbol (.delimiter .semicolon) => .ok (.nop l, toks.tail)
  | _ =>
    if atClassDefinition toks then classDefinition n toks
    else if atFunctionDefinition toks then functionDefinition G n toks
    else
      (do
        let s ← simple G n
        expect (delim .semicolon)
        return s : Parser Stmt) toks

/-- The parsers of expressions and statements nested at most so deep. -/
def grammar : Nat → Grammar
  | 0 => ⟨fail .expectedExpression, fail .expectedExpression⟩
  | n + 1 => ⟨fun toks => expression (grammar n) n toks, fun toks => statement (grammar n) n toks⟩

/-- The statements up to the end of the file, at most so many. -/
def statements (stmt : Parser Stmt) : Nat → Parser (List Stmt)
  | 0 => pure []
  | n + 1 => do
    if (← peek) matches .eof then return []
    let s ← stmt
    return s :: (← statements stmt n)

end Parser

/-- The program that a list of tokens spells. -/
def parse (sourceName : String) (tokens : List Token) : Except ParseError Program :=
  match Parser.statements (Parser.grammar (tokens.length + 1)).stmt (tokens.length + 1) tokens with
  | .ok (body, _) => .ok ⟨sourceName, body⟩
  | .error e => .error e

/-- Why a source text is no program. -/
inductive SourceError where
  | lex (e : LexError)
  | parse (e : ParseError)

namespace SourceError

/-- The line of the error. -/
def line : SourceError → Nat
  | lex e => e.line
  | parse e => e.line

/-- The error in words, without its line. -/
def summary : SourceError → String
  | lex e => e.fault.message
  | parse e => e.fault.message

/-- The error in words, with its line. -/
def message : SourceError → String
  | lex e => e.message
  | parse e => e.message

end SourceError

/-- The program that a source text spells. -/
def parseSource (sourceName source : String) : Except SourceError Program :=
  match lex source with
  | .error e => .error (.lex e)
  | .ok tokens =>
    match parse sourceName tokens with
    | .error e => .error (.parse e)
    | .ok program => .ok program

end HeapScript
