import HeapScript.Machine.Place
import HeapScript.Proofs.Fault.Outcome

/-!
# Outcomes of computations

When a sequence of computations on a machine succeeds, and what it does where the first
of them is known to.

* `Exec.bind_ok_iff`, `Exec.pure_ok_iff`, `Exec.check_ok_iff`, `Exec.located_ok_iff` and
  `Exec.inLoop_ok` take a success apart.
* `Exec.bind_of_ok` runs on from one, `Exec.bind_congr_ok` exchanges what runs on from any.
* `Exec.assign_cases`: how an assignment ends; `Exec.assign_ok_iff` takes one that succeeds
  apart.
-/

namespace HeapScript.Exec

variable {α β : Type} {x : Exec α} {f : α → Exec β} {g : Machine → Except Fault α}
  {m m' : Machine}

theorem bind_ok_iff {b : β} : (x >>= f) m = .ok b m' ↔
    ∃ a m₁, x m = .ok a m₁ ∧ f a m₁ = .ok b m' := by
  rw [bind_apply]
  cases x m <;> simp [and_assoc]

theorem pure_ok_iff {a b : α} : (pure a : Exec α) m = .ok b m' ↔ a = b ∧ m = m' := by
  rw [pure_apply, Result.ok.injEq]

theorem check_ok_iff {a : α} : check g m = .ok a m' ↔ g m = .ok a ∧ m' = m := by
  rw [check]
  cases g m <;> simp [eq_comm]

theorem bind_of_ok {a : α} (h : x m = .ok a m') : (x >>= f) m = f a m' := by
  rw [bind_apply, h]

/-- What comes next matters only where the first part ends. -/
theorem bind_congr_ok {g : α → Exec β} (h : ∀ a m m', x m = .ok a m' → f a m' = g a m') :
    x >>= f = x >>= g := by
  funext m
  rw [bind_apply, bind_apply]
  cases hx : x m with
  | ok a m' => exact h a m m' hx
  | error e m' => rfl
  | outOfFuel => rfl

theorem located_ok_iff {line : Nat} {a : α} : located line x m = .ok a m' ↔ x m = .ok a m' := by
  rw [located]
  cases x m with
  | ok a m => rfl
  | error e m => cases hs : e.site <;> simp [hs]
  | outOfFuel => rfl

theorem inLoop_ok {a : α} (h : inLoop x m = .ok a m') : ∃ m₁ m₂, x m₁ = .ok a m₂ ∧
    m' = m₂.modifyFrame fun f => { f with loopDepth := f.loopDepth - 1 } := by
  rw [inLoop] at h
  split at h
  · rename_i hr
    cases h
    exact ⟨_, _, hr, rfl⟩
  · cases h
  · cases h

/-- An assignment fails and changes nothing, or stores the value that passed the checks in
the slot it found. -/
theorem assign_cases (p : Place) (op : AssignOp) (v : Value) (m : Machine) :
    (∃ f, assign p op v m = .error { fault := f } m) ∨
    ∃ slot w m', m.locate p = .ok slot ∧ m.assignedValue slot op v = .ok w ∧
      m.writePlace slot.place w = .ok m' ∧ assign p op v m = .ok w m' := by
  rw [assign]
  cases ho : (do
    let slot ← m.locate p
    let w ← m.assignedValue slot op v
    let m' ← m.writePlace slot.place w
    return (w, m') : Except Fault (Value × Machine)) with
  | ok r =>
    simp only [bind_eq_ok, pure_eq_ok] at ho
    obtain ⟨slot, hslot, w, hw, m', hm', rfl⟩ := ho
    exact .inr ⟨slot, w, m', hslot, hw, hm', rfl⟩
  | error f => exact .inl ⟨f, rfl⟩

theorem assign_ok_iff {p : Place} {op : AssignOp} {v w : Value} : assign p op v m = .ok w m' ↔
    ∃ slot, m.locate p = .ok slot ∧ m.assignedValue slot op v = .ok w ∧
      m.writePlace slot.place w = .ok m' := by
  constructor
  · intro h
    rcases assign_cases p op v m with ⟨f, he⟩ | ⟨slot, w', m₁, hslot, hw, hm, ho⟩
    · rw [he] at h
      cases h
    · rw [ho] at h
      cases h
      exact ⟨slot, hslot, hw, hm⟩
  · rintro ⟨slot, hslot, hw, hm⟩
    simp only [assign, hslot, hw, hm, bind, Except.bind, pure, Except.pure]

end HeapScript.Exec
