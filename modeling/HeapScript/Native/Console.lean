import HeapScript.Native.Basic

/-!
# Printing, input, files and pauses
-/

namespace HeapScript.Native

/-- The texts of the arguments between single spaces. -/
def joined (h : Heap) (args : List Value) : String :=
  " ".intercalate (args.map h.display)

/-- Prints the arguments. -/
def print : Native where
  name := "print"
  arity := .atLeast 0
  run _ args w := (.ok .void, { w with console := w.console.print (joined w.heap args) })

/-- Prints the arguments and a line break. -/
def println : Native where
  name := "println"
  arity := .atLeast 0
  run _ args w := (.ok .void, { w with console := w.console.print (joined w.heap args ++ "\n") })

/-- The next line of input; empty when there is none. -/
def input : Native where
  name := "input"
  arity := .exactly 0
  run _ _ w :=
    let (line, console) := w.console.readLine
    (.ok (.str (line.getD "")), { w with console })

/-- The text of a file. -/
def readFile : Native where
  name := "read_file"
  arity := .exactly 1
  run _ args w :=
    let result := do
      let path ← expectStr (args.headD .void)
      let text ← (w.files.read path).mapError (.file .read path)
      return .str text
    (result, w)

/-- Writes the text of a value to a file. -/
def writeFile : Native where
  name := "write_file"
  arity := .exactly 2
  run _ args w :=
    let result := do
      let path ← expectStr (args.headD .void)
      (w.files.write path (w.heap.display (args.tail.headD .void))).mapError (.file .write path)
    match result with
    | .ok files => (.ok .void, { w with files })
    | .error f => (.error f, w)

/-- Whether a pause is neither negative nor beyond all measure. -/
def isPause (milliseconds : Float) : Bool :=
  let seconds := milliseconds / 1000
  decide (0 ≤ seconds) && decide (seconds < 18446744073709551616)

/-- Pauses for a number of milliseconds. -/
def sleep : Native where
  name := "sleep"
  arity := .exactly 1
  run _ args w :=
    match expectNum (args.headD .void) with
    | .error f => (.error f, w)
    | .ok ms =>
      if isPause ms then (.ok .void, { w with paused := w.paused + ms.toUInt64.toNat })
      else (.error (.invalidPause ms), w)

/-- The functions of this module. -/
def consoleNatives : Natives :=
  [print, println, input, readFile, writeFile, sleep]

end HeapScript.Native
