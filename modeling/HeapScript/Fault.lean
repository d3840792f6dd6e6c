import HeapScript.Heap

/-!
# Faults

Everything that can go wrong while a program runs, one constructor per cause, and
the words for each.

* `Fault.message` is the text of a fault.
* `RuntimeError` is a fault together with the statement at which it was raised.
* `Trace.text` shows the calls that were active then, the innermost first.
-/

namespace HeapScript

/-- What a reference was wanted for. -/
inductive RefUse where
  | declaration (name : String)
  | parameter (name : String)
  | member (name : String)
  | memberSlot
  | result (function : String)
  | receiver
  | comparedFirst
  | comparedSecond
  deriving DecidableEq, Repr

/-- The use of a reference in words. -/
def RefUse.text : RefUse → String
  | declaration name => "`ref` declaration of `" ++ name ++ "`"
  | parameter name => "parameter `" ++ name ++ "`"
  | member name => "member `" ++ name ++ "`"
  | memberSlot => "a `ref` member"
  | result function => "the return value of `" ++ function ++ "`"
  | receiver => "the receiver of `bind`"
  | comparedFirst => "the first argument of `same`"
  | comparedSecond => "the second argument of `same`"

/-- What is done to a file. -/
inductive FileAction where
  | read
  | write
  deriving DecidableEq, Repr

/-- The action in words. -/
def FileAction.text : FileAction → String
  | read => "read"
  | write => "write"

/-- Why a file cannot be read or written. -/
inductive FileFault where
  | notFound
  | isDirectory
  | notDirectory
  | nameTooLong
  | nulInName
  | invalidUtf8
  deriving DecidableEq, Repr

/-- The words for a file fault. -/
def FileFault.message : FileFault → String
  | notFound => "No such file or directory (os error 2)"
  | isDirectory => "Is a directory (os error 21)"
  | notDirectory => "Not a directory (os error 20)"
  | nameTooLong => "File name too long (os error 36)"
  | nulInName => "file name contained an unexpected NUL byte"
  | invalidUtf8 => "stream did not contain valid UTF-8"

/-- What can go wrong while a program runs. -/
inductive Fault where
  | typeMismatch (expected found : String)
  | invalidOperands (op : BinaryOp) (left right : Value)
  | invalidOperand (op : String) (operand : Value)
  | undefinedVariable (name : String)
  | heap (e : HeapError)
  | indexOutOfBounds (index : Value) (length : Nat)
  | divisionByZero
  | moduloByZero
  | arityMismatch (name : String) (expected got : Nat)
  | notCallable (found : Value)
  | notAssignable (target : Value)
  | constantAssignment (name : String)
  | noSuchMember (className member : String)
  | breakOutsideLoop
  | continueOutsideLoop
  | returnOutsideFunction
  | referenceRequired (use : RefUse) (found : Value)
  | returnContract (expected found : Ty)
  | recursionLimit (depth : Nat)
  | missingArgument (placeholder : String) (given : Nat)
  | invalidConversion (text : String) (target : Ty)
  | file (action : FileAction) (path : String) (cause : FileFault)
  | invalidPause (milliseconds : Float)
  | missingOperand
  | custom (message : String)

namespace Fault

/-- The index as an out-of-bounds message shows it. -/
def showIndexValue : Value → String
  | .num n => Decimal.shown n
  | v => v.describe

/-- The words of a fault. -/
def message : Fault → String
  | typeMismatch expected found => "type mismatch: expected " ++ expected ++ ", found " ++ found
  | invalidOperands op left right =>
    "cannot apply `" ++ op.spelling ++ "` to " ++ left.describe ++ " and " ++ right.describe
  | invalidOperand op operand => "cannot apply `" ++ op ++ "` to " ++ operand.describe
  | undefinedVariable name => "undefined variable `" ++ name ++ "`"
  | heap e => e.message
  | indexOutOfBounds index length =>
    "index " ++ showIndexValue index ++ " out of bounds for array of length " ++ toString length
  | divisionByZero => "division by zero"
  | moduloByZero => "modulo by zero"
  | arityMismatch name expected got =>
    "`" ++ name ++ "` expects " ++ toString expected ++ " argument(s), got " ++ toString got
  | notCallable found => found.describe ++ " is not callable"
  | notAssignable target => "cannot assign to " ++ target.describe
  | constantAssignment name => "cannot assign to constant `" ++ name ++ "`"
  | noSuchMember className member => "`" ++ className ++ "` has no member `" ++ member ++ "`"
  | breakOutsideLoop => "`break` outside of a loop"
  | continueOutsideLoop => "`continue` outside of a loop"
  | returnOutsideFunction => "`return` outside of a function"
  | referenceRequired use found =>
    "expected a heap reference for " ++ use.text ++ ", found " ++ found.describe
  | returnContract expected found =>
    "function declared to return " ++ expected.text ++ " returned " ++ found.text
  | recursionLimit depth => "maximum call depth of " ++ toString depth ++ " exceeded"
  | missingArgument placeholder given =>
    "placeholder `@" ++ placeholder ++ "` has no argument (" ++ toString given ++ " given)"
  | invalidConversion text target =>
    "cannot convert " ++ Text.quote text ++ " to " ++ target.text
  | file action path cause =>
    "cannot " ++ action.text ++ " `" ++ path ++ "`: " ++ cause.message
  | invalidPause milliseconds =>
    "cannot sleep for " ++ Decimal.text milliseconds ++ " milliseconds"
  | missingOperand => "malformed expression: operand stack underflow"
  | custom message => message

end Fault

/-- An active call: the name of the function and the line it is at. -/
structure TraceEntry where
  name : String
  line : Nat
  deriving DecidableEq, Repr

/-- The active calls, the innermost first. -/
abbrev Trace := List TraceEntry

/-- The calls one a line, numbered from the innermost. -/
def Trace.text (trace : Trace) : String :=
  if trace.isEmpty then ""
  else
    "call trace:\n" ++ String.join (trace.zipIdx.map fun (entry, i) =>
      "  " ++ toString i ++ ": " ++ entry.name ++ " at line " ++ toString entry.line ++ "\n")

/-- The statement at which an error was raised, and the calls active then. -/
structure Site where
  source : String
  line : Nat
  trace : Trace
  deriving DecidableEq, Repr

/-- A fault. It gets its site from the innermost statement it leaves. -/
structure RuntimeError where
  fault : Fault
  site : Option Site := none

/-- The words of the error, without its site. -/
def RuntimeError.message (e : RuntimeError) : String :=
  e.fault.message

end HeapScript
