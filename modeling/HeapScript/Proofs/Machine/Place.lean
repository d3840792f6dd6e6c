import HeapScript.Machine.Place
import HeapScript.Proofs.Fault.Outcome

/-!
# Walking to a slot

* `Value.enter_member` and `Value.enter_index`: what a step that succeeds leads to.
* `LeadsToRef.endsInMember`: only a member slot holds references, so the place of a
  slot that does ends in a member.
-/

namespace HeapScript

namespace Value

variable {v part : Value} {ty : Ty} {holdsRef : Bool}

theorem enter_member {name : String} (h : v.enter (.member name) = .ok (part, ty, holdsRef)) :
    ∃ className layout members i p, v = .object className layout members ∧
      memberPosition? layout name = some i ∧ layout[i]? = some p ∧ members[i]? = some part ∧
      ty = p.ty ∧ holdsRef = p.isRef := by
  cases v with
  | object className layout members =>
    rw [enter] at h
    split at h
    · cases h
    · rename_i i hi
      split at h
      · rename_i p x hp hx
        cases h
        exact ⟨className, layout, members, i, p, rfl, hi, hp, hx, rfl, rfl⟩
      · cases h
  | _ => cases h

theorem enter_index {idx : Value} (h : v.enter (.index idx) = .ok (part, ty, holdsRef)) :
    ∃ items i, v = .array ty items ∧ checkedIndex idx items.length = .ok i ∧
      items[i]? = some part ∧ holdsRef = false := by
  cases v with
  | array tag items =>
    rw [enter] at h
    split at h
    · cases h
    · rename_i i hi
      split at h
      · rename_i x hx
        cases h
        exact ⟨items, i, rfl, hi, hx, rfl⟩
      · cases h
  | _ => cases h

end Value

/-- The place ends in a member. -/
def Place.EndsInMember (p : Place) : Prop :=
  ∃ name, p.path.getLast? = some (.member name)

namespace Machine

variable {m : Machine}

theorem walk_holdsRef {path : List Step} {w w' : Walk} (h : m.walk w path = .ok w')
    (hr : w'.slot.holdsRef = true) :
    (path = [] ∧ w.slot.holdsRef = true) ∨ ∃ name, path.getLast? = some (.member name) := by
  induction path generalizing w with
  | nil =>
    cases h
    exact .inl ⟨rfl, hr⟩
  | cons s r ih =>
    obtain ⟨x, -, h⟩ := bind_eq_ok.1 h
    obtain ⟨⟨part, ty, holdsRef⟩, he, h⟩ := bind_eq_ok.1 h
    rcases ih h with ⟨rfl, hlast⟩ | ⟨name, hlast⟩
    · -- the last step decides, and the slot of an element never holds references
      cases s with
      | member name => exact .inr ⟨name, rfl⟩
      | index v =>
        obtain ⟨items, i, -, -, -, hfalse⟩ := Value.enter_index he
        rw [hfalse] at hlast
        cases hlast
    · exact .inr ⟨name, by rw [List.getLast?_cons, hlast]; rfl⟩

/-- The place leads to a slot that holds references. -/
def LeadsToRef (m : Machine) (p : Place) : Prop :=
  ∃ slot, m.locate p = .ok slot ∧ slot.holdsRef = true

theorem LeadsToRef.endsInMember {p : Place} (h : m.LeadsToRef p) : p.EndsInMember := by
  obtain ⟨slot, h, hr⟩ := h
  obtain ⟨⟨value, ty⟩, -, h⟩ := bind_eq_ok.1 h
  obtain ⟨w, hw, h⟩ := bind_eq_ok.1 h
  have hslot : w.slot.holdsRef = true := by
    split at h
    · rename_i hfalse _
      obtain ⟨last, -, h⟩ := bind_eq_ok.1 h
      rw [← pure_eq_ok.1 h] at hr
      exact hr
    · rw [pure_eq_ok.1 h]
      exact hr
  rcases walk_holdsRef hw hslot with ⟨-, hfalse⟩ | hlast
  · cases hfalse
  · exact hlast

end Machine

end HeapScript
