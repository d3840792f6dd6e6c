import HeapScript.Value.Conform

/-!
# Operators on values

What the operators do to data that is no placeholder and no reference.

* `Value.binary` and `Value.unary` are total: operands that do not fit give a
  fault that names them.
* Comparisons other than `>` come from it and from `==`; the bitwise operators
  work on whole numbers of 64 bits.
-/

namespace HeapScript

namespace Value

/-- The text that a scalar adds to a string. -/
def concatText? : Value → Option String
  | num n => some (Decimal.shown n)
  | str s => some s
  | bool b => some (if b then "true" else "false")
  | _ => none

/-- Whether a value that is no array may become an element of an array. -/
def fitsElement (element : Ty) : Value → Bool
  | array _ _ => false
  | v => element.accepts v.type

/-- The text of two scalars one after the other. -/
def concat (left right : Value) : Except Fault Value :=
  match concatText? left, concatText? right with
  | some a, some b => .ok (str (a ++ b))
  | _, _ => .error (.invalidOperands .add left right)

/-- Adds numbers, puts an element at either end of an array, joins texts. -/
def add (left right : Value) : Except Fault Value :=
  match left, right with
  | num a, num b => .ok (num (a + b))
  | array t xs, v =>
    if fitsElement t v then .ok (array t (xs ++ [v]))
    else .error (.invalidOperands .add left right)
  | v, array t xs =>
    if fitsElement t v then .ok (array t (v :: xs))
    else .error (.invalidOperands .add left right)
  | str _, _ => concat left right
  | _, str _ => concat left right
  | _, _ => .error (.invalidOperands .add left right)

/-- Subtracts numbers, or takes the element at an index out of an array. -/
def sub (left right : Value) : Except Fault Value :=
  match left with
  | num a =>
    match right with
    | num b => .ok (num (a - b))
    | _ => .error (.invalidOperands .sub left right)
  | array t xs =>
    if right.isWhole then
      match right.int? with
      | some i =>
        if 0 ≤ i ∧ i < xs.length then .ok (array t (xs.eraseIdx i.toNat))
        else .error (.indexOutOfBounds right xs.length)
      | none => .error (.indexOutOfBounds right xs.length)
    else .error (.invalidOperands .sub left right)
  | _ => .error (.invalidOperands .sub left right)

/-- Multiplication, division and remainder of numbers. -/
def arithmetic (op : BinaryOp) (left right : Value) : Except Fault Value :=
  match left, right with
  | num a, num b =>
    match op with
    | .mul => .ok (num (a * b))
    | .div => if b == 0 then .error .divisionByZero else .ok (num (a / b))
    | .mod => if b == 0 then .error .moduloByZero else .ok (num (Decimal.remainder a b))
    | _ => .error (.invalidOperands op left right)
  | _, _ => .error (.invalidOperands op left right)

/-- Equality of two scalars of one kind. -/
def equals (op : BinaryOp) (left right : Value) : Except Fault Bool :=
  match left, right with
  | num a, num b => .ok (a == b)
  | str a, str b => .ok (a == b)
  | bool a, bool b => .ok (a == b)
  | _, _ => .error (.invalidOperands op left right)

/-- Whether the first number is greater. -/
def greater (op : BinaryOp) (left right : Value) : Except Fault Bool :=
  match left, right with
  | num a, num b => .ok (decide (b < a))
  | _, _ => .error (.invalidOperands op left right)

/-- Greater or equal. The faults are those of `>` and `==`. -/
def greaterOrEqual (left right : Value) : Except Fault Bool := do
  let gt ← greater .gt left right
  let eq ← equals .eq left right
  return gt || eq

/-- Less or equal. The faults are those of `>`, with the operands exchanged, and
of `==`. -/
def lessOrEqual (left right : Value) : Except Fault Bool := do
  let lt ← greater .gt right left
  let eq ← equals .eq left right
  return lt || eq

/-- A logical operator on truth values; both sides have been evaluated. -/
def logic (op : BinaryOp) (f : Bool → Bool → Bool) (left right : Value) : Except Fault Value :=
  match left, right with
  | bool a, bool b => .ok (bool (f a b))
  | _, _ => .error (.invalidOperands op left right)

/-- A bitwise operator on 64-bit integers. A shift must be by 0 to 63 bits. -/
def bits (op : BinaryOp) (a b : Int64) : Option Int64 :=
  match op with
  | .bitAnd => some (a &&& b)
  | .bitOr => some (a ||| b)
  | .bitXor => some (a ^^^ b)
  | .shiftLeft => if 0 ≤ b ∧ b < 64 then some (a <<< b) else none
  | .shiftRight => if 0 ≤ b ∧ b < 64 then some (a >>> b) else none
  | _ => none

/-- A bitwise operator on whole numbers. -/
def bitwise (op : BinaryOp) (left right : Value) : Except Fault Value :=
  match left.int?, right.int? with
  | some a, some b =>
    match bits op (Int64.ofInt a) (Int64.ofInt b) with
    | some c => .ok (num (Float.ofInt c.toInt))
    | none => .error (.invalidOperands op left right)
  | _, _ => .error (.invalidOperands op left right)

/-- Joins two arrays with elements of one type, or takes the exclusive or of two
whole numbers. -/
def xor (left right : Value) : Except Fault Value :=
  match left, right with
  | array t xs, array u ys =>
    if t = u then .ok (array t (xs ++ ys)) else .error (.invalidOperands .bitXor left right)
  | _, _ => bitwise .bitXor left right

/-- What a binary operator does. -/
def binary (op : BinaryOp) (left right : Value) : Except Fault Value :=
  match op with
  | .add => add left right
  | .sub => sub left right
  | .mul | .div | .mod => arithmetic op left right
  | .eq => (equals op left right).map bool
  | .notEq => (equals op left right).map fun b => bool !b
  | .gt => (greater op left right).map bool
  | .lt => (greater op right left).map bool
  | .gtEq => (greaterOrEqual left right).map bool
  | .ltEq => (lessOrEqual left right).map bool
  | .and => logic op and left right
  | .or => logic op or left right
  | .bitXor => xor left right
  | .bitAnd | .bitOr | .shiftLeft | .shiftRight => bitwise op left right

/-- What a prefix operator does. -/
def unary (op : UnaryOp) (operand : Value) : Except Fault Value :=
  match op, operand with
  | .neg, num n => .ok (num (-n))
  | .not, bool b => .ok (bool !b)
  | .bitNot, v =>
    match v.int? with
    | some n => .ok (num (Float.ofInt (~~~ n)))
    | none => .error (.invalidOperand op.spelling v)
  | _, _ => .error (.invalidOperand op.spelling operand)

end Value

end HeapScript
