import HeapScript.Text.Blank

/-!
# The rows of a report

A report shows a source in rows. A row ends wherever a terminal would start a new
one: at a line feed, a vertical tab, a form feed, a carriage return and the line
breaks beyond ASCII. So a line of the source may take several rows, and rows are
numbered on their own.

* `rowsOf` are the rows of a source; nothing follows a line break at its end.
* `rowIndex` is the row that holds a byte of the source.
* `Row.widths` are the columns that the characters of a row take.
-/

namespace HeapScript.Report

/-- A row: where it starts, how many characters it has, its line break among them,
and its text without white space at its end. -/
structure Row where
  offset : Nat := 0
  length : Nat := 0
  text : List Char := []

/-- Whether a character ends a row. -/
def endsRow (c : Char) : Bool :=
  c == '\n' || c == '\x0b' || c == '\x0c' || c == '\r' || c == '\x85' || c == '\u2028' ||
    c == '\u2029'

/-- The pieces of a text, each with the line break that ends it. The first piece
starts with the given characters, backwards. A carriage return and the line feed
behind it are one line break. -/
def pieces (current : List Char) : List Char → List (List Char)
  | [] => if current.isEmpty then [] else [current.reverse]
  | '\r' :: '\n' :: r => ('\n' :: '\r' :: current).reverse :: pieces [] r
  | c :: r => if endsRow c then (c :: current).reverse :: pieces [] r else pieces (c :: current) r

/-- The rows that pieces make, the first at the given offset. -/
def rowsFrom (offset : Nat) : List (List Char) → List Row
  | [] => []
  | p :: ps => ⟨offset, p.length, Text.trimEnd p⟩ :: rowsFrom (offset + p.length) ps

/-- The rows of a source. -/
def rowsOf (source : String) : List Row :=
  rowsFrom 0 (pieces [] source.toList)

/-- The row, counted from zero, that holds an offset: the last that does not start
behind it. -/
def rowIndex (rows : List Row) (offset : Nat) : Nat :=
  (rows.takeWhile fun r => r.offset ≤ offset).length - 1

/-- The columns that the character at a position takes. A tab reaches to the next
multiple of four. -/
def columns (c : Char) (position : Nat) : Nat :=
  if c = '\t' then 4 - position % 4 else 1

namespace Row

/-- The widths of so many positions of a row, from its start. What is not part of
its text is one column wide. -/
def widths (r : Row) (count : Nat) : List Nat :=
  (r.text.zipIdx.map (fun (c, i) => columns c i) ++ List.replicate count 1).take count

/-- The text with its tabs as spaces. -/
def shown (r : Row) : String :=
  String.ofList (r.text.zipIdx.flatMap fun (c, i) =>
    if c = '\t' then List.replicate (columns c i) ' ' else [c])

end Row

end HeapScript.Report
