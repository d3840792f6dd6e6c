import HeapScript.Report.Row
import HeapScript.Report.Span

/-!
# The layout of a report

A report has a head, the marked rows with the message below them, perhaps a note,
and a foot, with a gutter for the row numbers on the left.

* A span within one row is underlined, and an arrow leads from its middle to the
  message; an empty one is marked by a bar.
* A span of several rows is bracketed on the left, and only the first and the last
  of them are shown; the message hangs on the end of the bracket.

The text of a source that is reported on is taken to be ASCII: one character is one
byte and, apart from tabs, one column.
-/

namespace HeapScript.Report

/-- A character several times. -/
def times (n : Nat) (c : Char) : String :=
  String.ofList (List.replicate n c)

/-- A column of marks: its first character, and the one that fills its width. -/
def cell (first fill : Char) (width : Nat) : List Char :=
  first :: List.replicate (width - 1) fill

/-- The marks of a row, one cell for each position. -/
def marks (widths : List Nat) (cellAt : Nat → Nat → List Char) : String :=
  String.ofList (widths.zipIdx.flatMap fun (width, position) => cellAt position width)

/-- The position in a row that the middle of a span is at. -/
def middle (r : Row) (s : Span) : Nat :=
  (s.start + s.stop) / 2 - r.offset

/-- The positions that the marks of a span take: up to its end, and two more. -/
def markWidths (r : Row) (s : Span) : List Nat :=
  r.widths (s.stop - r.offset + 2)

/-- The underline of a span within a row; a bar for an empty span. -/
def underline (r : Row) (s : Span) : String :=
  marks (markWidths r s) fun position =>
    let inside := s.contains (r.offset + position)
    if position = middle r s then
      if inside then cell '┬' '─' else cell '│' ' '
    else if inside then cell '─' '─'
    else cell ' ' ' '

/-- The arrow from the middle of a span within a row. -/
def arrow (r : Row) (s : Span) : String :=
  marks (markWidths r s) fun position =>
    if position < middle r s then cell ' ' ' '
    else if position = middle r s then cell '╰' '─'
    else cell '─' '─'

/-- The positions under the last row of a bracket: all of it, and two more. -/
def bracketWidths (r : Row) : List Nat :=
  r.widths (r.length + 2)

/-- The rows on which a span starts and ends, counted from zero. -/
structure Extent where
  first : Nat
  last : Nat

/-- The rows that a span touches. -/
def extent (rows : List Row) (s : Span) : Extent :=
  ⟨rowIndex rows s.start, rowIndex rows s.last⟩

namespace Extent

/-- The width of the largest number in the gutter. -/
def digits (e : Extent) : Nat :=
  (toString (e.last + 1)).length

/-- The gutter beside what is no row. -/
def gutter (e : Extent) (bar : Char) : String :=
  times (e.digits + 2) ' ' ++ String.ofList [bar, ' ']

/-- The gutter beside a row. -/
def numbered (e : Extent) (index : Nat) : String :=
  let number := toString (index + 1)
  times (e.digits + 1 - number.length) ' ' ++ number ++ " │ "

/-- The bracket beside a note, which is set out as if it stood at the first row. A
bracket that starts right behind that row reaches to it. -/
def noteMargin (e : Extent) : String :=
  if e.first = e.last then ""
  else if e.first = 1 then "│   "
  else "    "

end Extent

/-- The marked rows and the message. -/
def body (rows : List Row) (s : Span) (message : String) : List String :=
  let e := extent rows s
  let first := rows.getD e.first {}
  let last := rows.getD e.last {}
  if e.first = e.last then [
    e.numbered e.first ++ first.shown,
    e.gutter '│' ++ underline first s,
    e.gutter '│' ++ arrow first s ++ " " ++ message]
  else
    let gap := if e.first + 1 < e.last then [e.gutter '┆' ++ "┆   "] else []
    [e.numbered e.first ++ "╭─▶ " ++ first.shown] ++ gap ++ [
      e.numbered e.last ++ "├─▶ " ++ last.shown,
      e.gutter '│' ++ "│   " ++ marks (bracketWidths last) (fun _ => cell ' ' ' '),
      e.gutter '│' ++ "╰───" ++ marks (bracketWidths last) (fun _ => cell '─' '─') ++ " " ++
        message]

/-- The lines of a note. -/
def noteLines (e : Extent) (note : String) : List String :=
  [e.gutter '│' ++ e.noteMargin, e.gutter '│' ++ e.noteMargin ++ "Note: " ++ note]

/-- A report with a title, a message and perhaps a note. -/
def render (path source title message : String) (s : Span) (note : Option String) : String :=
  let rows := rowsOf source
  let e := extent rows s
  let column := s.start - (rows.getD e.first {}).offset + 1
  let margin := times (e.digits + 2) ' '
  let lines := [
      "Error: " ++ title,
      margin ++ "╭─[" ++ path ++ ":" ++ toString (e.first + 1) ++ ":" ++ toString column ++ "]",
      margin ++ "│"] ++
    body rows s message ++ (note.map (noteLines e)).getD [] ++
    [times (e.digits + 2) '─' ++ "╯"]
  String.join (lines.map (· ++ "\n"))

end HeapScript.Report
