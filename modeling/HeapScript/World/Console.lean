/-!
# The console

What a program prints and where its input comes from.

* A console keeps the printed text and hands out the input line by line.
* A silent one discards the text and has no input.
-/

namespace HeapScript

/-- Printed text and lines of input. -/
structure Console where
  isSilent : Bool := false
  output : String := ""
  input : List String := []
  deriving DecidableEq, Repr

namespace Console

/-- A console that discards what is printed and has no input. -/
def silent : Console where
  isSilent := true

/-- Prints a text. -/
def print (c : Console) (text : String) : Console :=
  if c.isSilent then c else { c with output := c.output ++ text }

/-- Takes the next line of input, if there is one. -/
def readLine (c : Console) : Option String × Console :=
  if c.isSilent then (none, c)
  else
    match c.input with
    | [] => (none, c)
    | line :: rest => (some line, { c with input := rest })

/-- Forgets what was printed. -/
def clear (c : Console) : Console :=
  { c with output := "" }

/-- A line without a carriage return at its end. -/
def stripReturn (cs : List Char) : List Char :=
  if cs.getLast? = some '\r' then cs.dropLast else cs

/-- The lines of a text. Each line break ends one, and with it goes a carriage
return before it; what follows the last line break is a line if it is not empty. -/
def splitLines (current : List Char) : List Char → List String
  | [] => if current.isEmpty then [] else [String.ofList current.reverse]
  | '\n' :: r => String.ofList (stripReturn current.reverse) :: splitLines [] r
  | c :: r => splitLines (c :: current) r

/-- A console whose input is a text. -/
def ofInput (text : String) : Console where
  input := splitLines [] text.toList

end Console

end HeapScript
