import HeapScript.Text.Blank

/-!
# Reading decimal numerals

The numerals a script may convert to a number: an optional sign, then either the
word for an infinity or for not-a-number in any letter case, or digits with at
most one point among them and an optional exponent. The value is the float
nearest to the decimal, an infinity when it is too large.

* `ofDigits` is the float of `digits · 10 ^ scale`.
* `read?` reads a whole numeral, and `readTrimmed?` one between white space.
-/

namespace HeapScript.Decimal

/-- The number that a run of decimal digits spells. -/
def natOfDigits (ds : List Char) : Nat :=
  ds.foldl (fun n c => 10 * n + (c.toNat - '0'.toNat)) 0

/-- The float nearest to `digits · 10 ^ scale`. Values far outside the range of
floats are answered without forming the power of ten. -/
def ofDigits (digits : Nat) (scale : Int) : Float :=
  let size : Int := (Nat.toDigits 10 digits).length + scale
  if digits = 0 then 0
  else if 400 < size then 1 / 0
  else if size < -400 then 0
  else if 0 ≤ scale then .ofScientific digits false scale.toNat
  else .ofScientific digits true (-scale).toNat

/-- The float that digits before and after a point spell. -/
def ofParts (whole fraction : List Char) (exponent : Int) : Float :=
  ofDigits (natOfDigits (whole ++ fraction)) (exponent - fraction.length)

/-- A sign, if there is one, and what follows it. -/
def splitSign : List Char → Bool × List Char
  | '-' :: r => (true, r)
  | '+' :: r => (false, r)
  | cs => (false, cs)

/-- The exponent that ends a numeral: nothing, or a mark, a sign and digits. -/
def readExponent? : List Char → Option Int
  | [] => some 0
  | c :: r =>
    if c = 'e' ∨ c = 'E' then
      match splitSign r with
      | (_, []) => none
      | (negative, ds) =>
        if ds.all Char.isDigit then
          some (if negative then -(natOfDigits ds : Int) else natOfDigits ds)
        else none
    else none

/-- An unsigned numeral made of digits. -/
def readDigits? (cs : List Char) : Option Float :=
  let whole := cs.takeWhile Char.isDigit
  let (fraction, rest) :=
    match cs.dropWhile Char.isDigit with
    | '.' :: r => (r.takeWhile Char.isDigit, r.dropWhile Char.isDigit)
    | r => ([], r)
  if whole.isEmpty && fraction.isEmpty then none
  else (readExponent? rest).map (ofParts whole fraction)

/-- A numeral that is the whole of a text. -/
def read? (cs : List Char) : Option Float :=
  let (negative, body) := splitSign cs
  let word := String.ofList (body.map Char.toLower)
  let magnitude : Option Float :=
    if word = "inf" ∨ word = "infinity" then some (1 / 0)
    else if word = "nan" then some (0 / 0)
    else readDigits? body
  magnitude.map fun x => if negative then -x else x

/-- A numeral with white space around it. -/
def readTrimmed? (s : String) : Option Float :=
  read? (Text.trim s.toList)

end HeapScript.Decimal
