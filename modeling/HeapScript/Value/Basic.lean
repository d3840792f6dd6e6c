import HeapScript.Decimal.Shortest
import HeapScript.Program.Basic
import HeapScript.Text.Quoted

/-!
# Values

What a variable, a heap chunk or the operand stack can hold. Arrays carry the
type of their elements and objects the slots of their class. A reference is the
index of a heap chunk. Names occur only on the operand stack, as placeholders of
the variables that are looked up when an operator needs them.

* `Value.type` is the type of a value that does not follow references.
* `Value.describe` is how an error message names a value.
* `Value.same` is equality of values; functions and classes are equal when the
  same place in the source defines them.
-/

namespace HeapScript

/-- A function with the heap chunk that is its `this`, if it is bound to one, and
the name of the member it was read through. -/
structure FunctionValue where
  definition : FunctionDef
  receiver : Option Nat := none
  boundName : Option String := none

/-- A value of the script language. -/
inductive Value where
  | num (n : Float)
  | str (s : String)
  | bool (b : Bool)
  | array (element : Ty) (items : List Value)
  | object (className : String) (layout : List Param) (members : List Value)
  | function (f : FunctionValue)
  | classDef (c : ClassDef)
  | ref (index : Nat)
  | ident (name : String)
  | void
  | unknown

namespace Value

/-- Whether the value is a placeholder that can be assigned to. -/
def isIdent : Value → Bool
  | ident _ => true
  | _ => false

/-- Whether the value is a number without a fractional part. -/
def isWhole : Value → Bool
  | num n => Decimal.isWhole n
  | _ => false

/-- The float of a number. -/
def num? : Value → Option Float
  | num n => some n
  | _ => none

/-- The integer of a whole number that fits in 64 bits with a sign. -/
def int? : Value → Option Int
  | num n => Decimal.int64? n
  | _ => none

/-- The truth value of a `bool`. -/
def bool? : Value → Option Bool
  | bool b => some b
  | _ => none

/-- The type of a value. A reference has the type `ref`, wherever it leads. -/
def type : Value → Ty
  | num n => if Decimal.isWhole n then .int else .num
  | str _ => .str
  | bool _ => .bool
  | array element _ => .array element
  | object className _ _ => .ofText className
  | function _ => .func
  | classDef _ => .classTy
  | ref _ => .named "ref"
  | ident _ => .named "identifier"
  | void => .void
  | unknown => .named "unknown"

/-- How a heap index is written. -/
def showIndex (index : Nat) : String :=
  "#" ++ toString index

/-- The kind of a value and, for scalars, the value. -/
def describe : Value → String
  | num n => "num " ++ Decimal.shown n
  | str s => "str " ++ Text.quote s
  | bool b => "bool " ++ (if b then "true" else "false")
  | array element items => element.text ++ "[] of length " ++ toString items.length
  | object className _ _ => "object of class `" ++ className ++ "`"
  | function _ => "function"
  | classDef c => "class `" ++ c.name ++ "`"
  | ref index => "reference to " ++ showIndex index
  | ident name => "identifier `" ++ name ++ "`"
  | void => "void"
  | unknown => "unknown"

/-- The position of a member among the slots of an object. -/
def memberPosition? (layout : List Param) (member : String) : Option Nat :=
  layout.findIdx? fun p => p.name == member

mutual

/-- Whether two values are equal. Numbers compare as floats do. -/
def same : Value → Value → Bool
  | num a, num b => a == b
  | str a, str b => a == b
  | bool a, bool b => a == b
  | array t xs, array u ys => t == u && sameAll xs ys
  | object c l xs, object d k ys => c == d && l == k && sameAll xs ys
  | function f, function g =>
    f.definition.line == g.definition.line && f.receiver == g.receiver
  | classDef c, classDef d => c.name == d.name && c.line == d.line
  | ref i, ref j => i == j
  | ident a, ident b => a == b
  | void, void => true
  | unknown, unknown => true
  | _, _ => false

/-- Whether two lists of values are equal, element by element. -/
def sameAll : List Value → List Value → Bool
  | [], [] => true
  | x :: xs, y :: ys => same x y && sameAll xs ys
  | _, _ => false

end

mutual

/-- The heap chunks that a value refers to without crossing into the heap: through
its references, its elements and members, and the receivers of its functions. -/
def refs : Value → List Nat
  | ref index => [index]
  | array _ items => refsAll items
  | object _ _ members => refsAll members
  | function f => f.receiver.toList
  | _ => []

/-- The heap chunks that several values refer to. -/
def refsAll : List Value → List Nat
  | [] => []
  | v :: vs => refs v ++ refsAll vs

end

theorem refsAll_eq_flatMap (vs : List Value) : refsAll vs = vs.flatMap refs := by
  induction vs with
  | nil => rfl
  | cons v vs ih => simp [refsAll, ih]

end Value

end HeapScript
