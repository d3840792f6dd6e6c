/-!
# Operators

The binary, prefix and assignment operators of the script language, how each is
spelled, and how tightly the binary ones bind.

* `BinaryOp.precedence` orders the binary operators; all of them associate to
  the left, assignment binds looser than each and prefix operators tighter.
* `AssignOp.binary?` is the operator that a compound assignment applies.
-/

namespace HeapScript

/-- The binary operators. -/
inductive BinaryOp where
  | add | sub | mul | div | mod
  | eq | notEq | lt | gt | ltEq | gtEq
  | and | or
  | bitAnd | bitOr | bitXor | shiftLeft | shiftRight
  deriving DecidableEq, Repr

namespace BinaryOp

/-- Every binary operator. -/
def all : List BinaryOp :=
  [add, sub, mul, div, mod, eq, notEq, lt, gt, ltEq, gtEq, and, or, bitAnd, bitOr, bitXor,
    shiftLeft, shiftRight]

/-- How the operator is written. -/
def spelling : BinaryOp → String
  | add => "+"
  | sub => "-"
  | mul => "*"
  | div => "/"
  | mod => "%"
  | eq => "=="
  | notEq => "!="
  | lt => "<"
  | gt => ">"
  | ltEq => "<="
  | gtEq => ">="
  | and => "&&"
  | or => "||"
  | bitAnd => "&"
  | bitOr => "|"
  | bitXor => "^"
  | shiftLeft => "<<"
  | shiftRight => ">>"

/-- How tightly the operator binds; a larger number binds tighter. -/
def precedence : BinaryOp → Nat
  | or => 2
  | and => 3
  | bitOr => 4
  | bitXor => 5
  | bitAnd => 6
  | eq | notEq => 7
  | lt | gt | ltEq | gtEq => 8
  | shiftLeft | shiftRight => 9
  | add | sub => 10
  | mul | div | mod => 11

theorem mem_all (op : BinaryOp) : op ∈ all := by cases op <;> decide

theorem two_le_precedence (op : BinaryOp) : 2 ≤ op.precedence := by cases op <;> decide

end BinaryOp

/-- The prefix operators. -/
inductive UnaryOp where
  | neg | not | bitNot
  deriving DecidableEq, Repr

namespace UnaryOp

/-- Every prefix operator. -/
def all : List UnaryOp := [neg, not, bitNot]

/-- How the operator is written. -/
def spelling : UnaryOp → String
  | neg => "-"
  | not => "!"
  | bitNot => "~"

end UnaryOp

/-- Plain assignment and the compound ones. -/
inductive AssignOp where
  | assign | add | sub | mul | div | mod | bitAnd | bitOr | bitXor
  deriving DecidableEq, Repr

namespace AssignOp

/-- Every assignment operator. -/
def all : List AssignOp := [assign, add, sub, mul, div, mod, bitAnd, bitOr, bitXor]

/-- How the operator is written. -/
def spelling : AssignOp → String
  | assign => "="
  | add => "+="
  | sub => "-="
  | mul => "*="
  | div => "/="
  | mod => "%="
  | bitAnd => "&="
  | bitOr => "|="
  | bitXor => "^="

/-- The operator that a compound assignment applies before it stores. -/
def binary? : AssignOp → Option BinaryOp
  | assign => none
  | add => some .add
  | sub => some .sub
  | mul => some .mul
  | div => some .div
  | mod => some .mod
  | bitAnd => some .bitAnd
  | bitOr => some .bitOr
  | bitXor => some .bitXor

end AssignOp

end HeapScript
