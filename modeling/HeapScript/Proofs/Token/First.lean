import Mathlib.Order.Minimal

/-!
# The first one in a text

A text holds things at places: `At before a` says that `a` stands behind `before`.

* `First At Bad a`: `a` is bad and everything that stands before it is not.
* `first_iff_of_behind` and `first_iff_of_front` take the front of the text off, without
  and with something that stands there; `exists_first_iff` says when there is a first one.
-/

namespace HeapScript

variable {α : Type} {At Behind : List Char → α → Prop} {Bad : α → Prop} {a : α}
  {front : List Char}

/-- The first of what stands in a text for which something holds. -/
def First (At : List Char → α → Prop) (Bad : α → Prop) (a : α) : Prop :=
  ∃ before, At before a ∧ Bad a ∧
    ∀ before' b, At before' b → before'.length < before.length → ¬Bad b

theorem exists_first_iff : (∃ a, First At Bad a) ↔ ∃ before a, At before a ∧ Bad a := by
  constructor
  · rintro ⟨a, before, hat, hbad, -⟩
    exact ⟨before, a, hat, hbad⟩
  · rintro ⟨before, a, hat, hbad⟩
    obtain ⟨p, hp, hmin⟩ := exists_minimalFor_of_wellFoundedLT
      (fun p : List Char × α => At p.1 p.2 ∧ Bad p.2) (fun p => p.1.length)
      ⟨(before, a), hat, hbad⟩
    refine ⟨p.2, p.1, hp.1, hp.2, fun before' b hat' hlt hbad' => ?_⟩
    exact Nat.not_le.2 hlt (hmin (j := (before', b)) ⟨hat', hbad'⟩ hlt.le)

theorem not_first_of_not_at (h : ∀ before a, ¬At before a) : ¬First At Bad a :=
  fun ⟨before, hat, _⟩ => h before a hat

/-- Nothing stands in the front part. -/
theorem first_iff_of_behind
    (h : ∀ before a, At before a ↔ ∃ u, before = front ++ u ∧ Behind u a) :
    First At Bad a ↔ First Behind Bad a := by
  constructor
  · rintro ⟨before, hat, hbad, hfirst⟩
    obtain ⟨u, rfl, hu⟩ := (h _ _).1 hat
    refine ⟨u, hu, hbad, fun v b hv hlt => hfirst (front ++ v) b ((h _ _).2 ⟨v, rfl, hv⟩) ?_⟩
    simpa using hlt
  · rintro ⟨u, hu, hbad, hfirst⟩
    refine ⟨front ++ u, (h _ _).2 ⟨u, rfl, hu⟩, hbad, fun before' b hat' hlt => ?_⟩
    obtain ⟨v, rfl, hv⟩ := (h _ _).1 hat'
    exact hfirst v b hv (by simpa using hlt)

/-- One thing stands in the front part, at its start. -/
theorem first_iff_of_front {b : α} (hne : front ≠ [])
    (h : ∀ before a, At before a ↔ before = [] ∧ a = b ∨
      ∃ u, before = front ++ u ∧ Behind u a) :
    First At Bad a ↔ Bad b ∧ a = b ∨ ¬Bad b ∧ First Behind Bad a := by
  have hb : At [] b := (h _ _).2 (.inl ⟨rfl, rfl⟩)
  have hlength (u : List Char) : ([] : List Char).length < (front ++ u).length := by
    rw [List.length_append]
    exact Nat.add_pos_left (List.length_pos_iff.2 hne) _
  constructor
  · rintro ⟨before, hat, hbad, hfirst⟩
    rcases (h _ _).1 hat with ⟨-, rfl⟩ | ⟨u, rfl, hu⟩
    · exact .inl ⟨hbad, rfl⟩
    · refine .inr ⟨hfirst _ _ hb (hlength u), u, hu, hbad, fun v c hv hlt => ?_⟩
      exact hfirst (front ++ v) c ((h _ _).2 (.inr ⟨v, rfl, hv⟩)) (by simpa using hlt)
  · rintro (⟨hbad, rfl⟩ | ⟨hgood, u, hu, hbad, hfirst⟩)
    · exact ⟨[], hb, hbad, fun _ _ _ hlt => absurd hlt (Nat.not_lt_zero _)⟩
    · refine ⟨front ++ u, (h _ _).2 (.inr ⟨u, rfl, hu⟩), hbad, fun before' c hat' hlt => ?_⟩
      rcases (h _ _).1 hat' with ⟨-, rfl⟩ | ⟨v, rfl, hv⟩
      · exact hgood
      · exact hfirst v c hv (by simpa using hlt)

end HeapScript
