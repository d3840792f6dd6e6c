import HeapScript.Parser.Basic
import HeapScript.Program.Basic

/-!
# Types, parameters and how a statement is told from its first tokens

A declaration starts with a flag word or with a type that a name follows; a
function definition and a class definition are told by their first three or four
tokens. The type at the front may be any number of tokens long.

* `type` and `param` read a type and a parameter.
* `atDeclaration`, `atFunctionDefinition` and `atClassDefinition` look ahead.
-/

namespace HeapScript.Parser

/-- The name of a type that a single token can be. -/
def typeName? : TokenKind → Option String
  | .ident name => some name
  | .symbol (.keyword .func) => some "func"
  | .symbol (.keyword .classDef) => some "class"
  | _ => none

/-- Takes the pairs of brackets at the front; each makes an array of the type. -/
def arraySuffixes (t : Ty) : List Token → Ty × List Token
  | a :: b :: r =>
    if a.kind.isSymbol (delim .lbracket) && b.kind.isSymbol (delim .rbracket) then
      arraySuffixes (.array t) r
    else (t, a :: b :: r)
  | toks => (t, toks)

/-- A type: a name and pairs of brackets. -/
def type : Parser Ty := fun toks =>
  match typeName? (front toks).kind with
  | some name => .ok (arraySuffixes (.named name) toks.tail)
  | none => fail .expectedType toks

/-- Whether the token is a name. -/
def isIdent : TokenKind → Bool
  | .ident _ => true
  | _ => false

/-- The declaration flag that a token can be. -/
def flag? : TokenKind → Option (DeclFlags → DeclFlags)
  | .symbol (.keyword .const) => some fun f => { f with isConst := true }
  | .symbol (.keyword .alloc) => some fun f => { f with isAlloc := true }
  | .symbol (.keyword .ref) => some fun f => { f with isRef := true }
  | _ => none

/-- Whether a declaration is at the front: a flag, or a type and a name. -/
def atDeclaration (toks : List Token) : Bool :=
  (flag? (front toks).kind).isSome ||
    match typeName? (front toks).kind with
    | some name => isIdent (front (arraySuffixes (.named name) toks.tail).2).kind
    | none => false

/-- Whether the definition of a named function is at the front. -/
def atFunctionDefinition (toks : List Token) : Bool :=
  let skip := if at? (kw .closure) toks then 1 else 0
  (kindAt toks skip).isSymbol (kw .func) && isIdent (kindAt toks (skip + 1)) &&
    (kindAt toks (skip + 2)).isSymbol (delim .lparen)

/-- Whether the definition of a class is at the front. -/
def atClassDefinition (toks : List Token) : Bool :=
  at? (kw .classDef) toks && isIdent (kindAt toks 1) &&
    (kindAt toks 2).isSymbol (delim .lbrace)

/-- The flags of a declaration, in any order and number. -/
def flags (f : DeclFlags) : List Token → DeclFlags × List Token
  | [] => (f, [])
  | t :: r =>
    match flag? t.kind with
    | some set => flags (set f) r
    | none => (f, t :: r)

/-- `[ref] TYPE NAME` -/
def param : Parser Param := do
  let isRef ← eat (kw .ref)
  let ty ← type
  let name ← expectIdent
  return { name, ty, isRef }

/-- The parameters up to and with the closing parenthesis, at most so many. -/
def paramsRest : Nat → Parser (List Param)
  | 0 => fail (.unexpectedToken (.symbol (delim .rparen)))
  | n + 1 => do
    let p ← param
    if ← eat (delim .rparen) then return [p]
    expect (delim .comma)
    return p :: (← paramsRest n)

/-- A list of parameters behind its opening parenthesis. -/
def params (n : Nat) : Parser (List Param) := do
  if ← eat (delim .rparen) then return []
  paramsRest n

/-- The members of a class up to and with the closing brace, at most so many. -/
def members : Nat → Parser (List Param)
  | 0 => fail (.unexpectedToken (.symbol (delim .rbrace)))
  | n + 1 => do
    if ← eat (delim .rbrace) then return []
    let p ← param
    expect (delim .semicolon)
    return p :: (← members n)

/-- `class NAME { MEMBER; … } [;]` -/
def classDefinition (n : Nat) : Parser Stmt := do
  let l ← line
  expect (kw .classDef)
  let name ← expectIdent
  expect (delim .lbrace)
  let slots ← members n
  let _ ← eat (delim .semicolon)
  return .classDef { name, members := slots, line := l } l

/-- The declared result of a function: without an arrow it is `var`. -/
def returnType : Parser (Ty × Bool) := do
  if ← eat (delim .arrow) then
    let returnsRef ← eat (kw .ref)
    let ty ← type
    return (ty, returnsRef)
  return (.var, false)

end HeapScript.Parser
