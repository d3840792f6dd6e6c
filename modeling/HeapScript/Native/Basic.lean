import HeapScript.Machine.Basic

/-!
# Native functions by shape

Most native functions look at their arguments and the heap, and change nothing.
The constructors here fix the number of arguments, which a call checks before it
runs the function.

* `Native.pure1` and `Native.pure2` make such functions from what they compute.
* `expectNum` and `expectStr` are the checks on arguments.
-/

namespace HeapScript

namespace Native

/-- The number that an argument is. -/
def expectNum : Value → Except Fault Float
  | .num n => .ok n
  | v => .error (.typeMismatch "num" v.type.text)

/-- The text that an argument is. -/
def expectStr : Value → Except Fault String
  | .str s => .ok s
  | v => .error (.typeMismatch "str" v.type.text)

/-- A function of one argument that changes nothing. -/
def pure1 (name : String) (f : Heap → Value → Except Fault Value) : Native where
  name
  arity := .exactly 1
  run _ args w := (f w.heap (args.headD .void), w)

/-- A function of two arguments that changes nothing. -/
def pure2 (name : String) (f : Heap → Value → Value → Except Fault Value) : Native where
  name
  arity := .exactly 2
  run _ args w := (f w.heap (args.headD .void) (args.tail.headD .void), w)

/-- The function, handed references as they are. -/
def byRef (f : Native) : Native :=
  { f with takesRefs := true }

end Native

end HeapScript
