import HeapScript.Fault

/-!
# Outcomes of checks

A check ends with a value or a fault. The lemmas here take a sequence of checks
that succeeded apart into its parts.
-/

namespace HeapScript

variable {ε δ α β : Type}

@[simp] theorem bind_eq_ok {x : Except ε α} {f : α → Except ε β} {b : β} :
    x >>= f = .ok b ↔ ∃ a, x = .ok a ∧ f a = .ok b := by
  cases x <;> simp [bind, Except.bind]

@[simp] theorem pure_eq_ok {a b : α} : (pure a : Except ε α) = .ok b ↔ a = b := by
  simp [pure, Except.pure]

@[simp] theorem mapError_ok (cause : ε → δ) (a : α) :
    (.ok a : Except ε α).mapError cause = .ok a := rfl

@[simp] theorem mapError_error (cause : ε → δ) (e : ε) :
    (.error e : Except ε α).mapError cause = .error (cause e) := rfl

@[simp] theorem mapError_eq_ok {x : Except ε α} {cause : ε → δ} {a : α} :
    x.mapError cause = .ok a ↔ x = .ok a := by
  cases x <;> simp

@[simp] theorem map_eq_ok {x : Except ε α} {f : α → β} {b : β} :
    x.map f = .ok b ↔ ∃ a, x = .ok a ∧ f a = b := by
  cases x <;> simp [Except.map]

@[simp] theorem map_eq_error {x : Except ε α} {f : α → β} {e : ε} :
    x.map f = .error e ↔ x = .error e := by
  cases x <;> simp [Except.map]

end HeapScript
