import HeapScript.Proofs.Program.Lowering
import HeapScript.Proofs.Value.Occurs

/-!
# Values that may be stored

* `Value.SoundAt` is what has to hold of a value and of every value in it: no
  placeholders, a member for every slot, no references as elements, and only
  references that the heap has.
* `Value.Kept` adds that the bodies of functions come from lowered trees. It is what
  evaluation keeps: by operators, by retagging, by replacing a part, and when the
  heap grows.
-/

namespace HeapScript

namespace Value

/-- What a stored value must be on a heap of so many chunks, its parts apart. -/
def SoundAt (capacity : Nat) : Value → Prop
  | ident _ | unknown => False
  | object _ layout members => members.length = layout.length
  | array _ items => ∀ x ∈ items, ¬x.IsRef
  | ref index => index < capacity
  | function f => ∀ receiver, f.receiver = some receiver → receiver < capacity
  | num _ | str _ | bool _ | classDef _ | void => True

/-- The body of the value, if it is a function, holds lowered trees only. -/
def BodyLowered : Value → Prop
  | function f => f.definition.body.IsLowered
  | _ => True

/-- What evaluation keeps of a stored value and of every value in it. -/
def Kept (capacity : Nat) (v : Value) : Prop :=
  v.Every fun x => x.SoundAt capacity ∧ x.BodyLowered

variable {capacity capacity' : Nat} {v w a b : Value}

theorem SoundAt.mono (hc : capacity ≤ capacity') (h : v.SoundAt capacity) :
    v.SoundAt capacity' := by
  cases v with
  | ref index => exact Nat.lt_of_lt_of_le h hc
  | function f => exact fun receiver hr => Nat.lt_of_lt_of_le (h receiver hr) hc
  | _ => exact h

theorem Kept.mono (hc : capacity ≤ capacity') (h : v.Kept capacity) : v.Kept capacity' :=
  h.imp fun _ hx => ⟨hx.1.mono hc, hx.2⟩

theorem Kept.sound (h : v.Kept capacity) : v.Every (SoundAt capacity) := h.imp fun _ hx => hx.1

theorem Kept.ident_ne (h : v.Kept capacity) (name : String) : v ≠ ident name := by
  rintro rfl
  exact h.self.1

theorem kept_of_isScalar (h : v.IsScalar) : v.Kept capacity := by
  refine every_of_parts_eq_nil h.parts_eq_nil ?_
  cases v <;> first | exact ⟨trivial, trivial⟩ | cases h

theorem kept_ref {index : Nat} (h : index < capacity) : (ref index).Kept capacity :=
  every_of_parts_eq_nil rfl ⟨h, trivial⟩

theorem kept_classDef (c : ClassDef) : (classDef c).Kept capacity :=
  every_of_parts_eq_nil rfl ⟨trivial, trivial⟩

theorem kept_function {f : FunctionValue}
    (hr : ∀ receiver, f.receiver = some receiver → receiver < capacity)
    (hb : f.definition.body.IsLowered) : (function f).Kept capacity :=
  every_of_parts_eq_nil rfl ⟨hr, hb⟩

theorem kept_array {tag : Ty} {items : List Value} (hi : ∀ x ∈ items, x.Kept capacity)
    (hr : ∀ x ∈ items, ¬x.IsRef) : (array tag items).Kept capacity :=
  every_iff.2 ⟨⟨hr, trivial⟩, hi⟩

theorem kept_object {className : String} {layout : List Param} {members : List Value}
    (hl : members.length = layout.length) (hm : ∀ x ∈ members, x.Kept capacity) :
    (object className layout members).Kept capacity :=
  every_iff.2 ⟨⟨hl, trivial⟩, hm⟩

theorem Kept.not_isRef_of_mem_elements (h : v.Kept capacity) (hw : w ∈ v.elements) :
    ¬w.IsRef := by
  cases v with
  | array tag items => exact h.self.1 w hw
  | _ => cases hw

/-- Operators make no references. -/
theorem MadeOf.not_isRef (h : MadeOf a b v) : ¬v.IsRef := by
  rcases h with h | ⟨tag, items, rfl, -⟩
  · exact h.not_isRef
  · rintro ⟨index, ⟨⟩⟩

theorem MadeOf.kept (h : MadeOf a b v) (ha : a.Kept capacity) (hb : b.Kept capacity)
    (ha' : ¬a.IsRef) (hb' : ¬b.IsRef) : v.Kept capacity := by
  rcases h with h | ⟨tag, items, rfl, h⟩
  · exact kept_of_isScalar h
  · refine kept_array (fun x hx => ?_) fun x hx => ?_
    · rcases h x hx with hx | hx | rfl | rfl
      · exact ha.part (mem_parts_of_mem_elements hx)
      · exact hb.part (mem_parts_of_mem_elements hx)
      · exact ha
      · exact hb
    · rcases h x hx with hx | hx | rfl | rfl
      · exact ha.not_isRef_of_mem_elements hx
      · exact hb.not_isRef_of_mem_elements hx
      · exact ha'
      · exact hb'

theorem Kept.retag (h : v.Kept capacity) (ty : Ty) : (v.retag ty).Kept capacity := by
  refine Every.retag (fun element tag items hP => ⟨fun x hx => ?_, trivial⟩) h ty
  obtain ⟨y, hy, rfl⟩ := List.mem_map.1 hx
  rw [retag_isRef]
  exact hP.1 y hy

theorem kept_default (ty : Ty) : ty.default.Kept capacity := by
  rw [Ty.default.eq_def]
  split
  · exact kept_array (by simp) (by simp)
  all_goals exact kept_of_isScalar trivial

/-- A part of a stored value may be replaced; the place of an element does not get a
reference. -/
theorem Kept.setAt {new : Value} {path : List Step} (h : v.setAt path new = .ok w)
    (hv : v.Kept capacity) (hnew : new.Kept capacity) (href : new.IsRef → HoldsRefs path) :
    w.Kept capacity := by
  refine Every.setAt (fun {v part new s ty holdsRef} he hv hs => ?_) h hv hnew href
  cases s with
  | member name =>
    obtain ⟨className, layout, members, i, p, rfl, hi, -⟩ := enter_member he
    simp only [replace, hi]
    exact ⟨(List.length_set ..).trans hv.1, trivial⟩
  | index idx =>
    obtain ⟨items, i, rfl, hi, -⟩ := enter_index he
    simp only [replace, hi]
    refine ⟨fun x hx => ?_, trivial⟩
    rcases List.mem_or_eq_of_mem_set hx with hx | rfl
    · exact hv.1 x hx
    · intro hx
      obtain ⟨name, ⟨⟩⟩ := hs hx

end Value

end HeapScript
