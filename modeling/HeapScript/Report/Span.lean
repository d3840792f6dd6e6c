/-!
# The lines of a source

Errors know the line they are on. A report marks the whole of it, so it needs the
range that the line takes in the source.

* `lineSpan` is the range of bytes that a line of a source takes, without its line
  break.
-/

namespace HeapScript.Report

/-- The lines of a text, without the line breaks between them. -/
def splitLines : List Char → List (List Char)
  | [] => [[]]
  | c :: r =>
    if c = '\n' then [] :: splitLines r
    else
      match splitLines r with
      | [] => [[c]]
      | line :: rest => (c :: line) :: rest

/-- A line without the carriage returns at its end. -/
def stripReturns (cs : List Char) : List Char :=
  (cs.reverse.dropWhile (· == '\r')).reverse

/-- The number of bytes that characters take. -/
def byteLength (cs : List Char) : Nat :=
  cs.foldr (fun c n => c.utf8Size + n) 0

/-- A range of bytes, without its end. -/
structure Span where
  start : Nat
  stop : Nat
  deriving DecidableEq, Repr

namespace Span

/-- Whether a byte lies in the range. -/
def contains (s : Span) (offset : Nat) : Bool :=
  s.start ≤ offset && offset < s.stop

/-- The last byte of the range; the place of the range if it is empty. -/
def last (s : Span) : Nat :=
  max s.start (s.stop - 1)

end Span

/-- The span of the line with a number, counted from zero, among lines of which the
first starts at the given byte. -/
def spanFrom? (start : Nat) : List (List Char) → Nat → Option Span
  | [], _ => none
  | line :: _, 0 => some ⟨start, start + byteLength (stripReturns line)⟩
  | line :: rest, n + 1 => spanFrom? (start + byteLength line + 1) rest n

/-- The bytes of the line with a number, counted from one, without its line break.
Beyond the last line it is the end of the source. -/
def lineSpan (source : String) (n : Nat) : Span :=
  let size := byteLength source.toList
  match n with
  | 0 => ⟨size, size⟩
  | n + 1 => (spanFrom? 0 (splitLines source.toList) n).getD ⟨size, size⟩

end HeapScript.Report
