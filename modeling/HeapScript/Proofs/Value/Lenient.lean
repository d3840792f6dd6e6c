import HeapScript.Proofs.Machine.Results

/-!
# Properties of references and functions

A property that asks something of references and functions only holds of whatever data
is made of values of which it holds at every depth.
-/

namespace HeapScript

namespace Value

variable {P : Value → Prop} {a b v w new : Value}

/-- The property asks nothing of values other than references and functions. -/
def Lenient (P : Value → Prop) : Prop :=
  ∀ v, ¬v.IsRef → (∀ f, v ≠ function f) → P v

namespace Lenient

theorem scalar (hP : Lenient P) (h : v.IsScalar) : v.Every P := by
  refine every_of_parts_eq_nil h.parts_eq_nil (hP v h.not_isRef ?_)
  rintro f rfl
  exact h

theorem array (hP : Lenient P) {tag : Ty} {items : List Value} (h : ∀ x ∈ items, x.Every P) :
    (Value.array tag items).Every P :=
  every_iff.2 ⟨hP _ nofun nofun, h⟩

theorem object (hP : Lenient P) {className : String} {layout : List Param} {members : List Value}
    (h : ∀ x ∈ members, x.Every P) : (Value.object className layout members).Every P :=
  every_iff.2 ⟨hP _ nofun nofun, h⟩

theorem arrayOf (hP : Lenient P) {items : List Value} (hi : ∀ x ∈ items, x.Every P)
    (h : arrayOf items = .ok v) : v.Every P := by
  obtain ⟨tag, rfl⟩ := eq_array_of_arrayOf h
  exact hP.array hi

theorem binary (hP : Lenient P) {op : BinaryOp} (ha : a.Every P) (hb : b.Every P)
    (h : Value.binary op a b = .ok v) : v.Every P := by
  rcases binary_eq_ok h with hs | ⟨tag, items, rfl, hitems⟩
  · exact hP.scalar hs
  · refine hP.array fun x hx => ?_
    rcases hitems x hx with hx | hx | rfl | rfl
    · exact ha.part (mem_parts_of_mem_elements hx)
    · exact hb.part (mem_parts_of_mem_elements hx)
    · exact ha
    · exact hb

theorem default (hP : Lenient P) (ty : Ty) : ty.default.Every P := by
  rw [Ty.default.eq_def]
  split
  · exact hP.array (by simp)
  all_goals exact hP.scalar trivial

theorem retag (hP : Lenient P) (hv : v.Every P) (ty : Ty) : (v.retag ty).Every P :=
  hv.retag (fun _ _ _ _ => hP _ nofun nofun) ty

theorem setAt (hP : Lenient P) {path : List Step} (h : v.setAt path new = .ok w) (hv : v.Every P)
    (hnew : new.Every P) : w.Every P := by
  induction path generalizing v w with
  | nil =>
    cases h
    exact hnew
  | cons s r ih =>
    obtain ⟨part, ty, holdsRef, part', he, hset, rfl⟩ := setAt_cons h
    have hpart' := ih hset (hv.part (enter_mem_parts he))
    refine hv.replace (hP _ (not_isRef_replace he) ?_) hpart'
    intro f hf
    cases s with
    | member name =>
      obtain ⟨className, layout, members, i, p, rfl, hi, -⟩ := enter_member he
      simp only [Value.replace, hi] at hf
      cases hf
    | index idx =>
      obtain ⟨items, i, rfl, hi, -⟩ := enter_index he
      simp only [Value.replace, hi] at hf
      cases hf

end Lenient

end Value

end HeapScript
