import HeapScript.Main
import HeapScript.Proofs.Eval.Accounts
import HeapScript.Proofs.Eval.Aliases
import HeapScript.Proofs.Eval.Assigned
import HeapScript.Proofs.Eval.Chains
import HeapScript.Proofs.Eval.Compound
import HeapScript.Proofs.Eval.Flow
import HeapScript.Proofs.Eval.ForLoop
import HeapScript.Proofs.Eval.Fuel
import HeapScript.Proofs.Eval.Interpolate
import HeapScript.Proofs.Eval.Isolation
import HeapScript.Proofs.Eval.Noninterference
import HeapScript.Proofs.Eval.Parameters
import HeapScript.Proofs.Eval.Paths
import HeapScript.Proofs.Eval.Tags
import HeapScript.Proofs.Eval.Targets
import HeapScript.Proofs.Eval.Tree
import HeapScript.Proofs.Heap.Display
import HeapScript.Proofs.Heap.Terminal
import HeapScript.Proofs.Machine.Collection
import HeapScript.Proofs.Machine.Overwritten
import HeapScript.Proofs.Parser.Complete.Program
import HeapScript.Proofs.Parser.Progress.Program
import HeapScript.Proofs.Parser.Seam.Program
import HeapScript.Proofs.Parser.Unambiguous
import HeapScript.Proofs.Position.Source
import HeapScript.Proofs.Token.Spacing
import HeapScript.Proofs.Value.Untagged
