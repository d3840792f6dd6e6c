import HeapScript.Proofs.Parser.Progress.Basic

/-!
# Rounds of loops

A loop of the grammar is given a bound on its rounds. To say that it does not come to the
bound, what it does there is left open.

* `rounds` is a loop with any parsers in the place of what it does when its bound is used
  up. `agree_rounds`: these are not run if each round takes a token and the bound is large
  enough.
* `paramsRound` and the definitions after it are the rounds of the loops of the grammar.
* `levels` are the nesting levels of the grammar around any innermost one.
-/

namespace HeapScript.Parser

variable {ι α : Type} {k n m : Nat}

/-! ## Loops with a bound -/

/-- A round of a loop with a state: it is told how many more there may be, and how the loop
goes on. -/
abbrev Round (ι α : Type) := Nat → (ι → Parser α) → ι → Parser α

/-- A round of a loop without a state that does not depend on the bound. -/
def Round.plain (F : Parser α → Parser α) : Round Unit α := fun _ next _ => F (next ())

/-- At most so many rounds, and then what the given parsers do. -/
def rounds (F : Round ι α) (q : ι → Parser α) : Nat → ι → Parser α
  | 0 => q
  | n + 1 => F n (rounds F q n)

/-- What goes on by rounds is a loop that does at its bound what it does without a round. -/
theorem eq_rounds {F : Round ι α} {f : Nat → ι → Parser α}
    (hf : ∀ n i, f (n + 1) i = F n (f n) i) : f = rounds F (f 0) := by
  funext n
  induction n with
  | zero => rfl
  | succ n ih =>
    funext i
    rw [hf, ih]
    rfl

/-- The rounds agree, and take a token before the loops go on. -/
def Advances (k : Nat) (F F' : Round ι α) : Prop :=
  ∀ j < k, ∀ n m g g', Enough j n m → (∀ i, Agree j 0 (g i) (g' i)) →
    ∀ i, Agree (j + 1) 0 (F n g i) (F' m g' i)

/-- Loops agree whose bounds are large enough, whatever they do at these. -/
theorem agree_rounds {F F' : Round ι α} (hF : Advances k F F') (q q' : ι → Parser α)
    (hn : k ≤ n) (hm : k ≤ m) (i : ι) : Agree k 0 (rounds F q n i) (rounds F' q' m i) := by
  induction k generalizing n m i with
  | zero => exact agree_zero
  | succ k ih =>
    obtain ⟨n, rfl⟩ := Nat.exists_eq_add_one.2 (Nat.zero_lt_of_lt hn)
    obtain ⟨m, rfl⟩ := Nat.exists_eq_add_one.2 (Nat.zero_lt_of_lt hm)
    have hn := Nat.le_of_succ_le_succ hn
    have hm := Nat.le_of_succ_le_succ hm
    have hless : Advances k F F' := fun j hj => hF j (Nat.lt_succ_of_lt hj)
    exact hF k (Nat.lt_succ_self k) n m _ _ (.of_le hn hm) (fun i => ih hless hn hm i) i

/-! ## The loops of the grammar -/

/-- A parameter and what stands behind it. -/
def paramsRound (next : Parser (List Param)) : Parser (List Param) := do
  let p ← param
  if ← eat (delim .rparen) then return [p]
  expect (delim .comma)
  return p :: (← next)

/-- A member, unless the class ends. -/
def membersRound (next : Parser (List Param)) : Parser (List Param) := do
  if ← eat (delim .rbrace) then return []
  let p ← param
  expect (delim .semicolon)
  return p :: (← next)

/-- An expression and what stands behind it. -/
def expressionsRound (expr : Parser Tree) (close : Symbol) (next : Parser (List Tree)) :
    Parser (List Tree) := do
  let e ← expr
  if ← eat close then return [e]
  expect (delim .comma)
  return e :: (← next)

/-- A member access, a call or an indexing, unless none follows. -/
def suffixesRound (G : Grammar) : Round Tree Tree := fun n next t => do
  if ← eat (delim .dot) then
    let name ← expectIdent
    next (.member t name)
  else if ← eat (delim .lparen) then
    let args ← expressions G.expr (delim .rparen) n
    next (.call t args)
  else if ← eat (delim .lbracket) then
    let idx ← G.expr
    expect (delim .rbracket)
    next (.index t idx)
  else return t

/-- Operands joined by operators that bind at least so tightly, or what stands behind a left
operand. -/
def chain (unary : Parser Tree) (n : Nat) : Nat × Option Tree → Parser Tree
  | (low, none) => binary unary n low
  | (low, some left) => operators unary n low left

/-- An operand, or behind one an operator, unless none follows that binds so tightly. -/
def chainRound (unary : Parser Tree) (next : Nat × Option Tree → Parser Tree) :
    Nat × Option Tree → Parser Tree
  | (low, none) => do
    let left ← unary
    next (low, some left)
  | (low, some left) => fun toks =>
    match binaryOp? (front toks).kind with
    | some op =>
      if op.precedence < low then .ok (left, toks)
      else
        (do
          let right ← next (op.precedence + 1, none)
          next (low, some (.binary op left right)) : Parser Tree) toks.tail
    | none => .ok (left, toks)

/-- A statement, unless the block ends. -/
def blockRound (stmt : Parser Stmt) (next : Parser (List Stmt)) : Parser (List Stmt) := do
  if ← eat (delim .rbrace) then return []
  if (← peek) matches .eof then fail (.unexpectedToken (.symbol (delim .rbrace)))
  let s ← stmt
  return s :: (← next)

/-- A statement, unless the file ends. -/
def statementsRound (stmt : Parser Stmt) (next : Parser (List Stmt)) : Parser (List Stmt) := do
  if (← peek) matches .eof then return []
  let s ← stmt
  return s :: (← next)

/-- The loops of the grammar, each with its rounds and by the bounds it is given. -/
inductive Loop : {ι α : Type} → Round ι α → (Nat → ι → Parser α) → Prop
  | paramsRest : Loop (.plain paramsRound) fun n _ => paramsRest n
  | members : Loop (.plain membersRound) fun n _ => members n
  | expressionsRest (m : Nat) (close : Symbol) :
    Loop (.plain (expressionsRound (grammar m).expr close))
      fun n _ => expressionsRest (grammar m).expr close n
  | suffixes (m : Nat) : Loop (suffixesRound (grammar m)) (suffixes (grammar m))
  | chain (m i : Nat) : Loop (fun _ => chainRound (prefixed (operand (grammar m) i)))
      (chain (prefixed (operand (grammar m) i)))
  | blockRest (m : Nat) : Loop (.plain (blockRound (grammar m).stmt))
      fun n _ => blockRest (grammar m).stmt n
  | statements (m : Nat) : Loop (.plain (statementsRound (grammar m).stmt))
      fun n _ => statements (grammar m).stmt n

/-- Each loop goes on by its rounds. -/
theorem Loop.eq_rounds {F : Round ι α} {f : Nat → ι → Parser α} (h : Loop F f) :
    f = rounds F (f 0) := by
  refine Parser.eq_rounds fun n i => ?_
  cases h with
  | chain j l => rcases i with ⟨low, none | left⟩ <;> rfl
  | _ => rfl

/-! ## Nesting -/

/-- The parsers of expressions and statements nested at most so deep, and then what the
innermost ones do. -/
def levels (G : Grammar) : Nat → Grammar
  | 0 => G
  | n + 1 => ⟨fun toks => expression (levels G n) n toks, fun toks => statement (levels G n) n toks⟩

theorem grammar_eq_levels : grammar = levels (grammar 0) := by
  funext n
  induction n with
  | zero => rfl
  | succ n ih =>
    show Grammar.mk (expression (grammar n) n) (statement (grammar n) n) =
      ⟨expression (levels (grammar 0) n) n, statement (levels (grammar 0) n) n⟩
    rw [ih]

end HeapScript.Parser
