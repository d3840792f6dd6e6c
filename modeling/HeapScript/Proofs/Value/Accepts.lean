import HeapScript.Ty
import Mathlib.Tactic.Common

/-!
# What a type accepts

* `Ty.accepts_iff` and `Ty.array_accepts_iff` read acceptance off the two types.
* `Ty.accepts_null_iff`: the types that accept a reference that leads to no data.
* `Ty.isDefinite`: no `var` in the type. Acceptance is transitive over such types only:
  `str[]` accepts `var[]` and `var[]` accepts `int[]`.
-/

namespace HeapScript

namespace Ty

variable {s t u : Ty}

theorem accepts_iff : t.accepts u ↔ t = u ∨ t = var ∨ t = num ∧ u = int ∨
    t = obj ∧ u.isClass ∨ ∃ d a, t = array d ∧ u = array a ∧ (a = var ∨ d.accepts a) := by
  rw [accepts.eq_def]
  simp only [Bool.or_eq_true, beq_iff_eq, Bool.and_eq_true, or_assoc]
  refine or_congr_right (or_congr_right (or_congr_right (or_congr_right ?_)))
  cases t with
  | named name => simp
  | array d =>
    cases u with
    | named name => simp
    | array a => simp

theorem named_accepts_iff {name : String} : (named name).accepts u ↔ named name = u ∨
    name = "var" ∨ name = "num" ∧ u = int ∨ name = "obj" ∧ u.isClass := by
  rw [accepts_iff]
  simp

theorem array_accepts_iff : (array t).accepts u ↔ ∃ a, u = array a ∧ (a = var ∨ t.accepts a) := by
  rw [accepts_iff]
  constructor
  · rintro (rfl | h | ⟨h, -⟩ | ⟨h, -⟩ | ⟨d, a, h, rfl, ha⟩)
    · exact ⟨t, rfl, .inr (accepts_self t)⟩
    · cases h
    · cases h
    · cases h
    · cases h
      exact ⟨a, rfl, ha⟩
  · rintro ⟨a, rfl, ha⟩
    exact .inr (.inr (.inr (.inr ⟨t, a, rfl, rfl, ha⟩)))

/-- The types that accept `null`, the type of what a reference that leads to no data leads
to. It is no built-in type, so `obj` takes it for a class. -/
theorem accepts_null_iff : t.accepts (named "null") ↔ t = var ∨ t = obj ∨ t = named "null" := by
  rw [accepts_iff]
  constructor
  · rintro (h | h | ⟨-, h⟩ | ⟨h, -⟩ | ⟨_, _, -, h, -⟩)
    · exact .inr (.inr h)
    · exact .inl h
    · exact absurd h (by decide)
    · exact .inr (.inl h)
    · cases h
  · rintro (h | h | h)
    · exact .inr (.inl h)
    · exact .inr (.inr (.inr (.inl ⟨h, by decide⟩)))
    · exact .inl h

/-- Whether the type names nothing that it accepts: it is not `var` and no array of
it. -/
def isDefinite : Ty → Bool
  | named name => name != "var"
  | array element => element.isDefinite

/-- Whether the type is `var` or definite: it is no array of `var`. -/
def isSolid : Ty → Bool
  | named _ => true
  | array element => element.isDefinite

theorem isSolid_of_isDefinite (h : t.isDefinite) : t.isSolid := by
  cases t with
  | named name => rfl
  | array element => exact h

theorem ne_var_of_isDefinite (h : t.isDefinite) : t ≠ var := by
  rintro rfl
  cases h

/-- A class accepts itself only. -/
theorem eq_of_isClass_accepts (ht : t.isClass) (h : t.accepts u) : t = u := by
  rcases accepts_iff.1 h with rfl | rfl | ⟨rfl, -⟩ | ⟨rfl, -⟩ | ⟨d, a, rfl, -⟩
  · rfl
  · exact absurd ht (by decide)
  · exact absurd ht (by decide)
  · exact absurd ht (by decide)
  · cases ht

/-- What accepts a definite type accepts all that this one does. -/
theorem accepts_trans (hs : s.accepts t) (ht : t.accepts u) (hd : t.isDefinite) : s.accepts u := by
  induction s generalizing t u with
  | named name =>
    rcases named_accepts_iff.1 hs with rfl | rfl | ⟨rfl, rfl⟩ | ⟨rfl, hc⟩
    · exact ht
    · exact var_accepts u
    · rcases named_accepts_iff.1 ht with rfl | h | ⟨h, -⟩ | ⟨h, -⟩
      · exact hs
      all_goals exact absurd h (by decide)
    · rw [← eq_of_isClass_accepts hc ht]
      exact hs
  | array d ih =>
    obtain ⟨a, rfl, ha⟩ := array_accepts_iff.1 hs
    obtain ⟨b, rfl, hb⟩ := array_accepts_iff.1 ht
    refine array_accepts_iff.2 ⟨b, rfl, hb.imp_right fun hb => ?_⟩
    exact ih (ha.resolve_left (ne_var_of_isDefinite hd)) hb hd

end Ty

end HeapScript
