import HeapScript.Proofs.Program.Occurs

/-!
# The lines of a statement

* `Stmt.Includes` says that a statement is part of another one, at any depth, outside of
  function literals: it runs in the same frame. `Stmt.Covers` are the lines of these.
* `Stmt.Shows`: the lines that a frame can be at while the statement does what is not done
  by its parts. For a loop that looks at a condition these are all that it covers, for any
  other statement it is its own.
-/

namespace HeapScript

namespace Stmt

/-- The second statement occurs in the first, outside of function literals. -/
inductive Includes : Stmt → Stmt → Prop
  | self (s : Stmt) : Includes s s
  | part {s t u : Stmt} : t ∈ s.parts → t.Includes u → Includes s u

/-- A statement that is included starts on the line. -/
def Covers (s : Stmt) (line : Nat) : Prop :=
  ∃ t, s.Includes t ∧ t.line = line

/-- A loop that looks at a condition. -/
def Tests : Stmt → Prop
  | whileLoop cond _ _ => cond.isEmpty = false
  | forLoop _ (some cond) _ _ _ => cond.isEmpty = false
  | _ => False

/-- The line is that of the statement, or it is one that a loop covers, and the loop looks
at a condition. -/
def Shows (s : Stmt) (line : Nat) : Prop :=
  line = s.line ∨ s.Tests ∧ s.Covers line

variable {s t : Stmt} {line : Nat}

theorem covers_self (s : Stmt) : s.Covers s.line := ⟨s, .self s, rfl⟩

theorem Covers.part (ht : t ∈ s.parts) (h : t.Covers line) : s.Covers line := by
  obtain ⟨u, hu, hline⟩ := h
  exact ⟨u, .part ht hu, hline⟩

theorem Includes.contains (h : s.Includes t) : s.Contains t := by
  induction h with
  | self s => exact .self s
  | part ht _ ih => exact .part ht ih

/-- What holds of the lines of all statements in a statement holds of the lines it
shows. -/
theorem Shows.of_within {P : Expr → Prop} {C : Stmt → Prop} {Q : Nat → Prop} (hs : s.Within P C)
    (hC : ∀ t, C t → Q t.line) (h : s.Shows line) : Q line := by
  rcases h with rfl | ⟨-, t, ht, rfl⟩
  · exact hC s hs.self
  · exact hC t (hs.stmts t ht.contains)

end Stmt

end HeapScript
