import HeapScript.Parser.Declaration
import HeapScript.Program.Tree

/-!
# Expressions

Expressions are read by precedence climbing: assignment binds loosest and nests
to the right, binary operators associate to the left within their precedence,
prefix operators bind tighter, and member access, calls and indexing tightest.

* `Grammar` holds the parsers of one nesting level further in.
* `expression` reads a whole expression, given those. The number it takes bounds
  the length of each operator chain and each list; it is chosen so large, by
  counting tokens, that it is never used up.
-/

namespace HeapScript.Parser

/-- The parsers for what is nested one level deeper. -/
structure Grammar where
  expr : Parser Tree
  stmt : Parser Stmt

/-- The binary operator that a token can be. -/
def binaryOp? : TokenKind → Option BinaryOp
  | .symbol (.operator op) => some op
  | _ => none

/-- The prefix operator that a token can be. -/
def unaryOp? : TokenKind → Option UnaryOp
  | .symbol s => s.unary?
  | _ => none

/-- The assignment operator that a token can be. -/
def assignOp? : TokenKind → Option AssignOp
  | .symbol (.assign op) => some op
  | _ => none

/-- Expressions between commas, up to and with the closing symbol, at least one
and at most so many. -/
def expressionsRest (expr : Parser Tree) (close : Symbol) : Nat → Parser (List Tree)
  | 0 => fail (.unexpectedToken (.symbol close))
  | n + 1 => do
    let e ← expr
    if ← eat close then return [e]
    expect (delim .comma)
    return e :: (← expressionsRest expr close n)

/-- Any number of expressions between commas, up to and with the closing symbol. -/
def expressions (expr : Parser Tree) (close : Symbol) (n : Nat) : Parser (List Tree) := do
  if ← eat close then return []
  expressionsRest expr close n

/-- A function behind `func` and, in a definition, its name. -/
def functionRest (G : Grammar) (n : Nat) (captures : Bool) (l : Nat) : Parser FunctionDef := do
  expect (delim .lparen)
  let ps ← params n
  let (ty, returnsRef) ← returnType
  if !(← check (delim .lbrace)) then
    fail (.unexpectedToken (.symbol (delim .lbrace)))
  let body ← G.stmt
  return { params := ps, returnType := ty, returnsRef, captures, body, line := l }

/-- `[closure] func (PARAMS) [-> [ref] TYPE] BLOCK` -/
def functionLiteral (G : Grammar) (n : Nat) : Parser FunctionDef := do
  let l ← line
  let captures ← eat (kw .closure)
  expect (kw .func)
  functionRest G n captures l

/-- A literal, a name, a parenthesised expression, an array or a function. -/
def primary (G : Grammar) (n : Nat) : Parser Tree := fun toks =>
  match (front toks).kind with
  | .num value => .ok (.num value, toks.tail)
  | .str value => .ok (.str value, toks.tail)
  | .ident name => .ok (.ident name, toks.tail)
  | .symbol (.keyword .trueValue) => .ok (.bool true, toks.tail)
  | .symbol (.keyword .falseValue) => .ok (.bool false, toks.tail)
  | .symbol (.delimiter .lparen) =>
    (do let inner ← G.expr; expect (delim .rparen); return .paren inner : Parser Tree) toks.tail
  | .symbol (.delimiter .lbracket) =>
    (do return .array (← expressions G.expr (delim .rbracket) n) : Parser Tree) toks.tail
  | .symbol (.keyword .func) | .symbol (.keyword .closure) =>
    (do return .function (← functionLiteral G n) : Parser Tree) toks
  | _ => fail .expectedExpression toks

/-- Member accesses, calls and indexings behind an operand, at most so many. -/
def suffixes (G : Grammar) : Nat → Tree → Parser Tree
  | 0, t => pure t
  | n + 1, t => do
    if ← eat (delim .dot) then
      let name ← expectIdent
      suffixes G n (.member t name)
    else if ← eat (delim .lparen) then
      let args ← expressions G.expr (delim .rparen) n
      suffixes G n (.call t args)
    else if ← eat (delim .lbracket) then
      let idx ← G.expr
      expect (delim .rbracket)
      suffixes G n (.index t idx)
    else return t

/-- An operand with everything that binds tighter than a prefix operator. -/
def operand (G : Grammar) (n : Nat) : Parser Tree := do
  let t ← primary G n
  suffixes G n t

/-- Prefix operators in front of an operand. -/
def prefixed (operand : Parser Tree) : Parser Tree
  | [] => operand []
  | t :: r =>
    match unaryOp? t.kind with
    | some op => (prefixed operand r).map fun (e, rest) => (.unary op e, rest)
    | none => operand (t :: r)

mutual

/-- Operands joined by operators that bind at least as tightly as `low`. -/
def binary (unary : Parser Tree) : Nat → Nat → Parser Tree
  | 0, _ => unary
  | n + 1, low => do
    let left ← unary
    operators unary n low left

/-- The operators behind a left operand, each with its right operand. -/
def operators (unary : Parser Tree) : Nat → Nat → Tree → Parser Tree
  | 0, _, left => pure left
  | n + 1, low, left => fun toks =>
    match binaryOp? (front toks).kind with
    | some op =>
      if op.precedence < low then .ok (left, toks)
      else
        (do
          let right ← binary unary n (op.precedence + 1)
          operators unary n low (.binary op left right) : Parser Tree) toks.tail
    | none => .ok (left, toks)

end

/-- A whole expression, assignment included. -/
def expression (G : Grammar) (n : Nat) : Parser Tree := do
  let target ← binary (prefixed (operand G n)) n 2
  match assignOp? (← peek) with
  | some op => do
    expect (.assign op)
    let value ← G.expr
    return .assign op target value
  | none => return target

end HeapScript.Parser
