import HeapScript.Operator
import HeapScript.Ty

/-!
# Programs

A program is a list of statements. Statements form a tree; an expression is kept
in postfix order, operands before their operator, with a parenthesised part as a
group of its own and the arguments of a call or index attached to its operator.

* `Stmt`, `Expr`, `Item`, `Instr` and `FunctionDef` are defined together, since a
  function literal is an operand and holds a statement.
* `Expr.flatten` is the sequence of instructions that a stack machine runs: the
  groups are spliced into place.
-/

namespace HeapScript

/-- A parameter of a function or a member slot of a class. -/
structure Param where
  name : String
  ty : Ty
  isRef : Bool
  deriving DecidableEq, Repr

/-- The words that may stand before a declared type. -/
structure DeclFlags where
  isConst : Bool := false
  isAlloc : Bool := false
  isRef : Bool := false
  deriving DecidableEq, Repr

/-- A class: the slots of its objects, in order, and the line that defines it. -/
structure ClassDef where
  name : String
  members : List Param
  line : Nat
  deriving DecidableEq, Repr

mutual

/-- A statement and the line it starts on. -/
inductive Stmt where
  | expr (value : Expr) (line : Nat)
  | decl (flags : DeclFlags) (ty : Ty) (name : String) (init : Option Expr) (line : Nat)
  | classDef (definition : ClassDef) (line : Nat)
  | ifThen (cond : Expr) (thenBranch : Stmt) (elseBranch : Option Stmt) (line : Nat)
  | whileLoop (cond : Expr) (body : Stmt) (line : Nat)
  | forLoop (init : Option Stmt) (cond : Option Expr) (step : Option Stmt) (body : Stmt)
    (line : Nat)
  | block (body : List Stmt) (line : Nat)
  | breakLoop (line : Nat)
  | continueLoop (line : Nat)
  | returnValue (value : Option Expr) (line : Nat)
  | setMember (target : Expr) (member : String) (op : AssignOp) (value : Expr) (line : Nat)
  | setIndex (target : Expr) (index : Expr) (op : AssignOp) (value : Expr) (line : Nat)
  | nop (line : Nat)

/-- An expression in postfix order. -/
structure Expr where
  items : List Item
  line : Nat

/-- A part of an expression: an instruction or a parenthesised group. -/
inductive Item where
  | instr (i : Instr)
  | group (e : Expr)

/-- An instruction. Operands push a value, operators take theirs off the stack. -/
inductive Instr where
  | num (value : Float)
  | str (value : String)
  | bool (value : Bool)
  | ident (name : String)
  | function (definition : FunctionDef)
  | array (elements : List Expr)
  | binary (op : BinaryOp)
  | unary (op : UnaryOp)
  | assign (op : AssignOp)
  | member
  | call (args : List Expr)
  | index (index : Expr)

/-- A function literal. One that captures sees the variables of its caller. -/
structure FunctionDef where
  params : List Param
  returnType : Ty
  returnsRef : Bool
  captures : Bool
  body : Stmt
  line : Nat

end

/-- The line that a statement starts on. -/
def Stmt.line : Stmt → Nat
  | .expr _ l | .decl _ _ _ _ l | .classDef _ l | .ifThen _ _ _ l | .whileLoop _ _ l
  | .forLoop _ _ _ _ l | .block _ l | .breakLoop l | .continueLoop l | .returnValue _ l
  | .setMember _ _ _ _ l | .setIndex _ _ _ _ l | .nop l => l

/-- Whether the expression has no items. -/
def Expr.isEmpty (e : Expr) : Bool :=
  e.items.isEmpty

mutual

/-- The instructions of an expression, with its groups spliced into place, and others
behind them. -/
def Expr.flattenThen : Expr → List Instr → List Instr
  | ⟨items, _⟩, rest => flattenItems items rest

/-- The instructions of a sequence of items, with others behind them. -/
def flattenItems : List Item → List Instr → List Instr
  | [], rest => rest
  | .instr i :: r, rest => i :: flattenItems r rest
  | .group e :: r, rest => e.flattenThen (flattenItems r rest)

end

/-- The instructions of an expression, with its groups spliced into place. -/
def Expr.flatten (e : Expr) : List Instr :=
  e.flattenThen []

/-- A parsed source: its name, for error reports, and its statements. -/
structure Program where
  sourceName : String
  statements : List Stmt

end HeapScript
