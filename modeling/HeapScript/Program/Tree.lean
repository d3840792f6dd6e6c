import HeapScript.Program.Basic

/-!
# Expression trees

The parser builds an expression as a tree, in which precedence is visible, and
lowers it to postfix order once it is complete.

* `Tree.lower` puts operands before their operator; a pair of parentheses becomes
  a group, and arguments, indices and elements stay with their operator. Every
  part gets the line of the whole expression.
-/

namespace HeapScript

/-- An expression as a tree. -/
inductive Tree where
  | num (value : Float)
  | str (value : String)
  | bool (value : Bool)
  | ident (name : String)
  | function (definition : FunctionDef)
  | array (elements : List Tree)
  | paren (inner : Tree)
  | binary (op : BinaryOp) (left right : Tree)
  | unary (op : UnaryOp) (operand : Tree)
  | assign (op : AssignOp) (target value : Tree)
  | member (object : Tree) (name : String)
  | call (callee : Tree) (args : List Tree)
  | index (object index : Tree)

namespace Tree

mutual

/-- The items of a tree on the given line, in postfix order, with other items
behind them. -/
def itemsThen (line : Nat) : Tree → List Item → List Item
  | num value, rest => .instr (.num value) :: rest
  | str value, rest => .instr (.str value) :: rest
  | bool value, rest => .instr (.bool value) :: rest
  | ident name, rest => .instr (.ident name) :: rest
  | function definition, rest => .instr (.function definition) :: rest
  | array elements, rest => .instr (.array (lowerAll line elements)) :: rest
  | paren inner, rest => .group ⟨itemsThen line inner [], line⟩ :: rest
  | binary op left right, rest =>
    itemsThen line left (itemsThen line right (.instr (.binary op) :: rest))
  | unary op operand, rest => itemsThen line operand (.instr (.unary op) :: rest)
  | assign op target value, rest =>
    itemsThen line target (itemsThen line value (.instr (.assign op) :: rest))
  | member object name, rest =>
    itemsThen line object (.instr (.ident name) :: .instr .member :: rest)
  | call callee args, rest => itemsThen line callee (.instr (.call (lowerAll line args)) :: rest)
  | index object idx, rest =>
    itemsThen line object (.instr (.index ⟨itemsThen line idx [], line⟩) :: rest)

/-- The expressions of several trees. -/
def lowerAll (line : Nat) : List Tree → List Expr
  | [] => []
  | t :: ts => ⟨itemsThen line t [], line⟩ :: lowerAll line ts

end

/-- The postfix expression of a tree. -/
def lower (line : Nat) (t : Tree) : Expr :=
  ⟨itemsThen line t [], line⟩

/-- An expression as a statement. An assignment to a member or an element is a
statement of its own kind, anything else is evaluated for its effect. -/
def toStmt (line : Nat) : Tree → Stmt
  | assign op (member object name) value =>
    .setMember (object.lower line) name op (value.lower line) line
  | assign op (index object idx) value =>
    .setIndex (object.lower line) (idx.lower line) op (value.lower line) line
  | t => .expr (t.lower line) line

end Tree

end HeapScript
