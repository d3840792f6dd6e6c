import HeapScript.Native.Basic

/-!
# Functions of numbers
-/

namespace HeapScript.Native

/-- A function of one number. -/
def numeric (name : String) (f : Float → Float) : Native :=
  pure1 name fun _ v => (expectNum v).map fun n => .num (f n)

/-- A number raised to a power. -/
def power : Native :=
  pure2 "pow" fun _ base exponent => do
    let b ← expectNum base
    let e ← expectNum exponent
    return .num (Float.pow b e)

/-- The functions of this module. -/
def arithmeticNatives : Natives :=
  [numeric "sqrt" Float.sqrt, numeric "sin" Float.sin, numeric "cos" Float.cos,
    numeric "tan" Float.tan, numeric "abs" Float.abs, numeric "floor" Float.floor, power]

end HeapScript.Native
