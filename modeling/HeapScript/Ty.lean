/-!
# Types

A type is a name, or an array of another type; arrays are written with a pair of
brackets behind the element type. A few names are built in, every other name is
taken for a class.

* `Ty.ofText` and `Ty.text` go between types and their written form.
* `Ty.accepts` says which values a slot of a type may hold: the type itself,
  anything for `var`, whole numbers for `num`, every class for `obj`, and arrays
  element by element.
-/

namespace HeapScript

/-- A type of the script language. -/
inductive Ty where
  | named (name : String)
  | array (element : Ty)
  deriving DecidableEq, Repr

namespace Ty

/-! ## The built-in types -/

abbrev num : Ty := named "num"
abbrev int : Ty := named "int"
abbrev str : Ty := named "str"
abbrev bool : Ty := named "bool"
abbrev obj : Ty := named "obj"
abbrev func : Ty := named "func"
abbrev classTy : Ty := named "class"
abbrev void : Ty := named "void"
abbrev var : Ty := named "var"

/-- The names that are not taken for classes. -/
def builtinNames : List String :=
  ["num", "int", "str", "bool", "obj", "func", "class", "void", "var"]

/-! ## Text -/

/-- How a type is written. -/
def text : Ty → String
  | named name => name
  | array element => element.text ++ "[]"

/-- The type whose written form, backwards, is given. -/
def ofReversed : List Char → Ty
  | ']' :: '[' :: r => array (ofReversed r)
  | cs => named (String.ofList cs.reverse)

/-- The type with a given written form. -/
def ofText (s : String) : Ty :=
  ofReversed s.toList.reverse

/-! ## Structure -/

/-- The type of the elements of an array type. -/
def element? : Ty → Option Ty
  | named _ => none
  | array element => some element

/-- Whether the type is an array type. -/
def isArray (t : Ty) : Bool :=
  t.element?.isSome

/-- Whether the type names a class: no array and no built-in type. -/
def isClass : Ty → Bool
  | named name => !builtinNames.contains name
  | array _ => false

/-- Whether a slot declared with the first type may hold a value of the second.
The empty array literal has elements of type `var` and fits every array. -/
def accepts : Ty → Ty → Bool
  | declared, actual =>
    declared == actual || declared == var || (declared == num && actual == int) ||
      (declared == obj && actual.isClass) ||
      match declared, actual with
      | array d, array a => a == var || accepts d a
      | _, _ => false

@[simp] theorem accepts_self (t : Ty) : t.accepts t := by
  unfold accepts; simp

@[simp] theorem var_accepts (t : Ty) : var.accepts t := by
  unfold accepts; simp

end Ty

end HeapScript
