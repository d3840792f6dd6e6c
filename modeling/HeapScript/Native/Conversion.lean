import HeapScript.Decimal.Numeral
import HeapScript.Native.Basic

/-!
# Conversions and inspection
-/

namespace HeapScript.Native

/-- The number that a number, a numeral or a truth value stands for. -/
def toFloat (h : Heap) (target : Ty) : Value → Except Fault Float
  | .num n => .ok n
  | .str s => (Decimal.readTrimmed? s).elim (.error (.invalidConversion s target)) .ok
  | .bool b => .ok (if b then 1 else 0)
  | v => .error (.typeMismatch target.text (h.typeOf v).text)

/-- The text of a value. -/
def toStr : Native :=
  pure1 "str" fun h v => .ok (.str (h.display v))

/-- A value as a number. -/
def toNum : Native :=
  pure1 "num" fun h v => (toFloat h .num v).map .num

/-- A value as a whole number; what is behind the point is dropped. -/
def toInt : Native :=
  pure1 "int" fun h v => do
    let n ← toFloat h .int v
    if n.isFinite then return .num (Decimal.truncate n)
    else .error (.invalidConversion (h.display v) .int)

/-- The type of a value. -/
def typeOf : Native :=
  pure1 "type" fun h v => .ok (.str (h.typeOf v).text)

/-- The number of elements of an array or characters of a string. -/
def length : Native :=
  pure1 "len" fun h v =>
    match v with
    | .array _ items => .ok (.num (Float.ofNat items.length))
    | .str s => .ok (.num (Float.ofNat s.length))
    | _ => .error (.typeMismatch "array or str" (h.typeOf v).text)

/-- The functions of this module. -/
def conversionNatives : Natives :=
  [toStr, toNum, toInt, typeOf, length]

end HeapScript.Native
