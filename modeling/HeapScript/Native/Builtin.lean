import HeapScript.Native.Arithmetic
import HeapScript.Native.Console
import HeapScript.Native.Conversion
import HeapScript.Native.Memory

/-!
# The built-in native functions
-/

namespace HeapScript

/-- Every built-in native function. -/
def Natives.builtin : Natives :=
  Native.consoleNatives ++ Native.conversionNatives ++ Native.arithmeticNatives ++
    Native.memoryNatives

end HeapScript
