import HeapScript.Fault

/-!
# Fitting values to declared types

A slot accepts a value whose type fits the declared one. An array that enters a
slot takes over the element type that the slot declares, at every depth.

* `Heap.conform` checks a value against a type and retags it.
* `Ty.default` is what a slot holds when nothing is put into it.
-/

namespace HeapScript

/-- Gives an array the element type that a declared type prescribes, and its
elements likewise. Elements of type `var` prescribe nothing. -/
def Value.retag : Ty → Value → Value
  | .array element, .array tag items =>
    if element = .var then .array tag items
    else .array element (items.map (retag element))
  | _, v => v

/-- The value as a slot of the declared type holds it, if it fits. -/
def Heap.conform (h : Heap) (declared : Ty) (v : Value) : Except Fault Value :=
  if declared.accepts (h.typeOf v) then .ok (v.retag declared)
  else .error (.typeMismatch declared.text (h.typeOf v).text)

/-- The value of a declaration without an initialiser. -/
def Ty.default : Ty → Value
  | .array element => .array element []
  | .named "num" => .num 0
  | .named "int" => .num 0
  | .named "str" => .str ""
  | .named "bool" => .bool false
  | .named _ => .void

end HeapScript
