import HeapScript.Decimal.Binary

/-!
# The shortest decimal text of a number

A number is written with the fewest decimal digits that read back as the same
float, never with an exponent. Among several such texts of equal length the one
nearest to the number wins, and of two equally near the larger.

* `shortest` finds the digits of a positive value, as `digits · 10 ^ scale`.
* `text` is the written form of any float, and `shown` the form a script sees, in
  which there is only one zero.
-/

namespace HeapScript.Decimal

/-- A ratio of natural numbers. -/
structure Ratio where
  num : Nat
  den : Nat

/-- `mantissa · 2 ^ exponent / 10 ^ scale`. -/
def scaled (mantissa : Nat) (exponent scale : Int) : Ratio where
  num := mantissa * twoTo exponent.toNat * Nat.pow 10 (-scale).toNat
  den := twoTo (-exponent).toNat * Nat.pow 10 scale.toNat

/-- Whether `digits · 10 ^ scale` is read back as `mantissa · 2 ^ exponent`. The
reals that are lie within half a gap on either side, ends included when the
mantissa is even; the gap below a power of two is half as wide. -/
def readsBack (mantissa : Nat) (exponent : Int) (digits : Nat) (scale : Int) : Bool :=
  let unit := scaled 1 exponent scale
  let below := if mantissa = twoTo 52 ∧ exponent ≠ -1074 then 1 else 2
  let value := 4 * digits * unit.den
  let low := (4 * mantissa - below) * unit.num
  let high := (4 * mantissa + 2) * unit.num
  if mantissa % 2 = 0 then low ≤ value && value ≤ high else low < value && value < high

/-- The number of digits before the decimal point, negative for a value below
one tenth: the least `p` with `mantissa · 2 ^ exponent < 10 ^ p`. -/
def pointPosition (mantissa : Nat) (exponent : Int) : Int :=
  let guess := ((Nat.log2 mantissa : Int) + exponent) * 30103 / 100000
  let fits (p : Int) : Bool := let r := scaled mantissa exponent p; r.num < r.den
  if fits guess then guess else if fits (guess + 1) then guess + 1 else guess + 2

/-- The candidate with `places` digits, if one of the two nearest to the value
reads back. -/
def candidate? (mantissa : Nat) (exponent : Int) (scale : Int) : Option Nat :=
  let r := scaled mantissa exponent scale
  let down := r.num / r.den
  let up := down + 1
  match readsBack mantissa exponent down scale, readsBack mantissa exponent up scale with
  | true, true => some (if 2 * (r.num % r.den) < r.den then down else up)
  | true, false => some down
  | false, true => some up
  | false, false => none

/-- Tries ever finer grids, at most `tries` of them. -/
def shortestFrom (mantissa : Nat) (exponent : Int) : Nat → Int → Nat × Int
  | 0, scale => ((scaled mantissa exponent scale).num / (scaled mantissa exponent scale).den, scale)
  | tries + 1, scale =>
    match candidate? mantissa exponent scale with
    | some d => (d, scale)
    | none => shortestFrom mantissa exponent tries (scale - 1)

/-- The shortest decimal `digits · 10 ^ scale` of a positive value. Seventeen
digits are always enough. -/
def shortest (mantissa : Nat) (exponent : Int) : Nat × Int :=
  shortestFrom mantissa exponent 17 (pointPosition mantissa exponent - 1)

/-- Drops the last zeros behind a decimal point. -/
def dropZeros (cs : List Char) : List Char :=
  (cs.reverse.dropWhile (· == '0')).reverse

/-- `digits · 10 ^ scale` without an exponent. -/
def positional (digits : Nat) (scale : Int) : String :=
  let ds := Nat.toDigits 10 digits
  if 0 ≤ scale then String.ofList (ds ++ List.replicate scale.toNat '0')
  else
    let places := (-scale).toNat
    let padded := List.replicate (places + 1 - ds.length) '0' ++ ds
    let whole := padded.take (padded.length - places)
    match dropZeros (padded.drop (padded.length - places)) with
    | [] => String.ofList whole
    | fraction => String.ofList (whole ++ '.' :: fraction)

/-- The written form of a float. -/
def text (x : Float) : String :=
  match decode x with
  | .nan => "NaN"
  | .infinite negative => if negative then "-inf" else "inf"
  | .finite negative m q =>
    let (digits, scale) := if m = 0 then (0, 0) else shortest m q
    (if negative then "-" else "") ++ positional digits scale

/-- The form in which a script shows a number: both zeros are `0`. -/
def shown (x : Float) : String :=
  if x == 0 then "0" else text x

end HeapScript.Decimal
