import HeapScript.Proofs.Value.Occurs
import HeapScript.Value.Conform

/-!
# Types of stored values

* `accepts_type_retag`: a slot that accepts a value accepts it retagged.
* `type_setAt`: replacing a part of a value leaves its type alone.
* `accepts_of_conform`: what a check against a declared type gives for data.
-/

namespace HeapScript

namespace Value

variable {v w new : Value} {declared : Ty}

theorem accepts_type_retag (h : declared.accepts v.type) :
    declared.accepts (v.retag declared).type := by
  rw [retag.eq_def]
  split
  · split
    · exact h
    · exact Ty.accepts_self _
  · exact h

theorem type_replace {part : Value} {s : Step} {ty : Ty} {holdsRef : Bool}
    (h : v.enter s = .ok (part, ty, holdsRef)) : (v.replace s new).type = v.type := by
  cases s with
  | member name =>
    obtain ⟨className, layout, members, i, p, rfl, hi, -⟩ := enter_member h
    simp only [replace, hi, type]
  | index idx =>
    obtain ⟨items, i, rfl, hi, -⟩ := enter_index h
    simp only [replace, hi, type]

/-- A value with a new part is of the same type, and no reference. What has parts is
neither a reference nor void. -/
theorem type_setAt {s : Step} {r : List Step} (h : v.setAt (s :: r) new = .ok w) :
    w.type = v.type ∧ ¬w.IsRef ∧ ¬v.IsRef ∧ v ≠ void := by
  obtain ⟨part, ty, holdsRef, part', he, -, rfl⟩ := setAt_cons h
  refine ⟨type_replace he, not_isRef_replace he, ?_, ?_⟩
  · rintro ⟨index, rfl⟩
    cases s <;> cases he
  · rintro rfl
    cases s <;> cases he

end Value

namespace Heap

variable {h : Heap} {declared : Ty} {v w : Value}

theorem typeOf_of_not_isRef (hv : ¬v.IsRef) : h.typeOf v = v.type := by
  refine typeOf_of_resolve ?_
  cases v with
  | ref index => exact absurd ⟨index, rfl⟩ hv
  | _ => rfl

/-- Data that conforms to a type is accepted by it as it is stored. -/
theorem accepts_of_conform (hv : ¬v.IsRef) (hw : h.conform declared v = .ok w) :
    declared.accepts w.type ∧ ¬w.IsRef := by
  rw [conform] at hw
  split at hw
  · rename_i ha
    cases hw
    rw [typeOf_of_not_isRef hv] at ha
    exact ⟨Value.accepts_type_retag ha, fun hr => hv (Value.retag_isRef.1 hr)⟩
  · cases hw

end Heap

end HeapScript
