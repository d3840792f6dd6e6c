/-!
# White space

The characters that count as white space when a number is read from text,
and trimming them off both ends.

* `isBlank` holds of the 25 characters with the Unicode property White_Space.
* `trim` removes them at both ends and nowhere else.
-/

namespace HeapScript.Text

/-- White space in the sense of Unicode, beyond ASCII too. -/
def isBlank (c : Char) : Bool :=
  let n := c.toNat
  (9 ≤ n && n ≤ 13) || n == 0x20 || n == 0x85 || n == 0xA0 || n == 0x1680 ||
    (0x2000 ≤ n && n ≤ 0x200A) || n == 0x2028 || n == 0x2029 || n == 0x202F ||
    n == 0x205F || n == 0x3000

/-- The text without white space at its end. -/
def trimEnd (cs : List Char) : List Char :=
  (cs.reverse.dropWhile isBlank).reverse

/-- The text without white space at either end. -/
def trim (cs : List Char) : List Char :=
  trimEnd (cs.dropWhile isBlank)

end HeapScript.Text
