/-!
# Numbers as exact binary fractions

A script number is a binary64 float. This module takes one apart into a sign, a
mantissa and a power of two, and puts one together again, so that the rules on
whole numbers, remainders and decimal text can be stated on exact integers.

* `twoTo` is a power of two.
* `decode` is the exact value, an infinity or not a number.
* `encode` is the float of an exact value that a float can hold.
* `whole?` is the integer a float stands for, if it stands for one.
* `remainder` is the exact remainder of a division that truncates.
-/

namespace HeapScript.Decimal

/-- The power of two with an exponent. -/
abbrev twoTo (exponent : Nat) : Nat :=
  Nat.pow 2 exponent

/-- What a float stands for. -/
inductive Decoded where
  | finite (negative : Bool) (mantissa : Nat) (exponent : Int)
  | infinite (negative : Bool)
  | nan
  deriving DecidableEq, Repr

/-- The value of a float, as `± mantissa · 2 ^ exponent` when it is finite. -/
def decode (x : Float) : Decoded :=
  let bits := x.toBits.toNat
  let negative := bits / twoTo 63 == 1
  let biased : Nat := bits / twoTo 52 % 2048
  let fraction : Nat := bits % twoTo 52
  if biased = 0 then .finite negative fraction (-1074)
  else if biased < 2047 then .finite negative (fraction + twoTo 52) ((biased : Int) - 1075)
  else if fraction = 0 then .infinite negative
  else .nan

/-- The float `± mantissa · 2 ^ exponent`, for a value that needs at most 53 bits
and lies in the range of floats. -/
def encode (negative : Bool) (mantissa : Nat) (exponent : Int) : Float :=
  let sign := if negative then twoTo 63 else 0
  if mantissa = 0 then .ofBits (UInt64.ofNat sign)
  else
    let low := max (exponent + (Nat.log2 mantissa : Int) - 52) (-1074)
    let shift := exponent - low
    let m := if 0 ≤ shift then mantissa * twoTo shift.toNat else mantissa / twoTo (-shift).toNat
    let biased := if m < twoTo 52 then 0 else (low + 1075).toNat
    .ofBits (UInt64.ofNat (sign + biased * twoTo 52 + m % twoTo 52))

/-- The integer that a finite value without a fractional part stands for. -/
def Decoded.whole? : Decoded → Option Int
  | .finite negative mantissa exponent =>
    let magnitude : Option Nat :=
      if 0 ≤ exponent then some (mantissa * twoTo exponent.toNat)
      else if mantissa % twoTo (-exponent).toNat = 0 then some (mantissa / twoTo (-exponent).toNat)
      else none
    magnitude.map fun n => if negative then -(n : Int) else n
  | _ => none

/-- The integer a float stands for. -/
def whole? (x : Float) : Option Int :=
  (decode x).whole?

/-- Whether a float stands for an integer. -/
def isWhole (x : Float) : Bool :=
  (whole? x).isSome

/-- The integer a float stands for, if it fits in 64 bits with a sign. -/
def int64? (x : Float) : Option Int :=
  (whole? x).filter fun n => -(twoTo 63 : Int) ≤ n ∧ n < twoTo 63

/-- The nearest integer towards zero. -/
def truncate (x : Float) : Float :=
  if x < 0 then x.ceil else x.floor

/-- The remainder of a division whose quotient is truncated: exact, with the sign
of the dividend, and the dividend itself when the divisor is infinite. -/
def remainder (x y : Float) : Float :=
  match decode x, decode y with
  | .finite negative m p, .finite _ n q =>
    if n = 0 then 0 / 0
    else
      let low := min p q
      encode negative ((m * twoTo (p - low).toNat) % (n * twoTo (q - low).toNat)) low
  | .finite .., .infinite _ => x
  | _, _ => 0 / 0

end HeapScript.Decimal
