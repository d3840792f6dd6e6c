import HeapScript.Eval.Call
import HeapScript.Proofs.Heap.Store
import HeapScript.Proofs.Machine.Confined
import HeapScript.Proofs.Value.Sound
import HeapScript.Proofs.Value.Type

/-!
# The variables of a frame

What a name stands for after each change to a frame, and what an assignment can make
of the variables.

* `Frame.get?_declare` and `Frame.get?_assign`: read after write.
* `Variable.Becomes`: a variable after an assignment. A constant stays as it is, so
  does a variable that holds a reference, and any other one gets other data.
* `Machine.assign_cases`: an assignment that found its slot changes a chunk, or one
  variable in this way.
-/

namespace HeapScript

namespace Frame

variable {f : Frame} {name k : String} {x : Variable}

theorem mem_of_get? (h : f.get? name = some x) : (name, x) ∈ f.vars := by
  rw [get?, List.lookup_eq_some_iff] at h
  obtain ⟨before, after, hvars, -⟩ := h
  rw [hvars]
  simp

theorem lookup_filter_ne (vars : List (String × Variable)) (h : k ≠ name) :
    (vars.filter fun p => p.1 != name).lookup k = vars.lookup k := by
  induction vars with
  | nil => rfl
  | cons p vars ih =>
    rcases p with ⟨key, y⟩
    by_cases hkey : key = name
    · have hk : (k == key) = false := beq_false_of_ne (hkey ▸ h)
      rw [List.filter_cons_of_neg (by simp [hkey]), ih, List.lookup_cons, hk]
    · rw [List.filter_cons_of_pos (by simp [hkey]), List.lookup_cons, List.lookup_cons, ih]

theorem get?_declare (f : Frame) (name k : String) (x : Variable) :
    (f.declare name x).get? k = if k = name then some x else f.get? k := by
  simp only [get?, declare, List.lookup_cons]
  split
  · rename_i h
    rw [if_pos (beq_iff_eq.1 h)]
  · rename_i h
    rw [beq_eq_false_iff_ne] at h
    rw [if_neg h, lookup_filter_ne f.vars h]

theorem get?_assign (f : Frame) (name k : String) (v : Value) :
    (f.assign name v).get? k =
      if k = name then (f.get? k).map fun x => { x with value := v } else f.get? k := by
  simp only [get?, assign]
  induction f.vars with
  | nil => simp
  | cons p vars ih =>
    rcases p with ⟨key, y⟩
    rw [List.map_cons]
    by_cases hk : k = key
    · subst hk
      split <;> simp_all
    · have hk : (k == key) = false := beq_false_of_ne hk
      split <;> simp only [List.lookup_cons, hk, ih]

end Frame

/-! ## Assigned variables -/

/-- What assignments can make of a variable. -/
inductive Variable.Becomes (x : Variable) : Variable → Prop
  | same : Becomes x x
  | assigned {v : Value} : x.isConst = false → ¬x.value.IsRef → ¬v.IsRef →
    Becomes x { x with value := v }

theorem Variable.Becomes.trans {x y z : Variable} (h : x.Becomes y) (h' : y.Becomes z) :
    x.Becomes z := by
  cases h with
  | same => exact h'
  | assigned hc hx hv =>
    cases h' with
    | same => exact .assigned hc hx hv
    | assigned _ _ hw => exact .assigned hc hx hw

theorem Place.EndsInMember.path_ne_nil {p : Place} (h : p.EndsInMember) : p.path ≠ [] := by
  obtain ⟨member, h⟩ := h
  intro hnil
  rw [hnil] at h
  cases h

namespace Machine

variable {m m' : Machine} {name : String} {x : Variable}

theorem not_isRef_of_deref {v w : Value} (h : m.deref v = .ok w) : ¬w.IsRef := by
  obtain ⟨-, hne⟩ := Heap.resolve_eq_ok (mapError_eq_ok.1 h)
  rintro ⟨index, hw⟩
  exact hne index hw

theorem not_isRef_of_resolve {v w : Value} (h : m.resolve v = .ok w) : ¬w.IsRef := by
  obtain ⟨_, -, h⟩ := bind_eq_ok.1 h
  exact not_isRef_of_deref h

theorem writableVariable_eq_ok (h : m.writableVariable name = .ok x) :
    m.frames.current.get? name = some x ∧ x.isConst = false := by
  rw [writableVariable] at h
  split at h
  · rename_i y hy
    split at h
    · cases h
    · rename_i hc
      cases h
      exact ⟨hy, by simpa using hc⟩
  · split at h <;> cases h

theorem rootValue_var {v : Value} {ty : Ty} (h : m.rootValue (.var name) = .ok (v, ty)) :
    ∃ x, m.frames.current.get? name = some x ∧ x.isConst = false ∧ v = x.value ∧ ty = x.ty := by
  obtain ⟨x, hx, h⟩ := bind_eq_ok.1 h
  cases pure_eq_ok.1 h
  obtain ⟨hget, hconst⟩ := writableVariable_eq_ok hx
  exact ⟨x, hget, hconst, rfl, rfl⟩

/-- Where a walk ends: a place with steps, a chunk, or where it began. -/
theorem walk_place {path : List Step} {w w' : Walk} (h : m.walk w path = .ok w') :
    path = [] ∧ w' = w ∨ w'.slot.place.path ≠ [] := by
  induction path generalizing w with
  | nil =>
    cases h
    exact .inl ⟨rfl, rfl⟩
  | cons s r ih =>
    right
    obtain ⟨y, -, h⟩ := bind_eq_ok.1 h
    obtain ⟨⟨part, ty, holdsRef⟩, -, h⟩ := bind_eq_ok.1 h
    rcases ih h with ⟨-, rfl⟩ | h
    · exact List.append_ne_nil_of_right_ne_nil _ (List.cons_ne_nil _ _)
    · exact h

/-- The slot that is a whole variable is the one that was asked for. It holds data and
accepts what the variable is declared for. -/
theorem locate_var {p : Place} {slot : Slot} (h : m.locate p = .ok slot)
    (hs : slot.place = .var name) :
    ∃ x, p = .var name ∧ m.frames.current.get? name = some x ∧ ¬x.value.IsRef ∧
      slot.declared = x.ty ∧ slot.holdsRef = false := by
  obtain ⟨⟨value, ty⟩, hroot, h⟩ := bind_eq_ok.1 h
  obtain ⟨w, hw, h⟩ := bind_eq_ok.1 h
  split at h
  · obtain ⟨last, -, h⟩ := bind_eq_ok.1 h
    rw [← pure_eq_ok.1 h] at hs
    cases hs
  · rename_i hdata
    rw [pure_eq_ok.1 h] at hdata
    rcases walk_place hw with ⟨hpath, rfl⟩ | hpath
    · rw [← pure_eq_ok.1 h] at hs
      rcases p with ⟨root, path⟩
      cases hpath
      cases hs
      obtain ⟨x, hget, hconst, rfl, rfl⟩ := rootValue_var hroot
      rw [← pure_eq_ok.1 h]
      refine ⟨x, rfl, hget, ?_, rfl, rfl⟩
      rintro ⟨index, hx⟩
      rw [← pure_eq_ok.1 h] at hdata
      exact hdata index rfl hx
    · rw [pure_eq_ok.1 h, hs] at hpath
      exact absurd rfl hpath

/-- What an assignment of data stores in a slot without references is data that the
slot accepts. -/
theorem assignedValue_accepted {slot : Slot} {op : AssignOp} {v w : Value} (hv : ¬v.IsRef)
    (hs : slot.holdsRef = false) (h : m.assignedValue slot op v = .ok w) :
    slot.declared.accepts w.type ∧ ¬w.IsRef := by
  rw [assignedValue, hs] at h
  split at h
  · obtain ⟨old, -, h⟩ := bind_eq_ok.1 h
    obtain ⟨a, -, h⟩ := bind_eq_ok.1 h
    obtain ⟨b, -, h⟩ := bind_eq_ok.1 h
    obtain ⟨y, hy, h⟩ := bind_eq_ok.1 h
    exact Heap.accepts_of_conform (Value.binary_eq_ok hy).not_isRef h
  · exact Heap.accepts_of_conform hv h

/-- An assignment changes no frame, or gives one variable of the innermost frame other
data: data that its type accepts, or of the type that its data had. -/
theorem assign_cases {p : Place} {slot : Slot} {op : AssignOp} {v w : Value}
    (hl : m.locate p = .ok slot) (hv : ¬v.IsRef ∨ p.path ≠ [])
    (hw : m.assignedValue slot op v = .ok w) (h : m.writePlace slot.place w = .ok m') :
    m'.frames = m.frames ∨ ∃ name x new, m.frames.current.get? name = some x ∧
      x.isConst = false ∧ ¬x.value.IsRef ∧ ¬new.IsRef ∧
      (x.ty.accepts new.type ∨ new.type = x.value.type ∧ x.value ≠ .void) ∧
      m' = m.modifyFrame (·.assign name new) := by
  obtain ⟨⟨old, ty⟩, hold, hset⟩ := bind_eq_ok.1 h
  obtain ⟨new, hnew, hwritten⟩ := bind_eq_ok.1 hset
  rcases hplace : slot.place with ⟨name | index, path⟩
  · right
    simp only [hplace] at hold hnew hwritten
    obtain ⟨x, hget, hconst, rfl, rfl⟩ := rootValue_var hold
    refine ⟨name, x, new, hget, hconst, ?_⟩
    rw [← pure_eq_ok.1 hwritten]
    cases path with
    | nil =>
      -- the whole variable: the slot is the one of its declaration
      obtain ⟨y, rfl, hy, hdata, hdeclared, hholds⟩ := locate_var hl hplace
      rw [hget] at hy
      cases hy
      have hv := hv.resolve_right (absurd rfl)
      obtain ⟨haccepts, hw⟩ := assignedValue_accepted hv hholds hw
      rw [hdeclared] at haccepts
      cases hnew
      exact ⟨hdata, hw, .inl haccepts, rfl⟩
    | cons s r =>
      obtain ⟨htype, hnew, hx, hvoid⟩ := Value.type_setAt hnew
      exact ⟨hx, hnew, .inr ⟨htype, hvoid⟩, rfl⟩
  · left
    simp only [hplace] at hwritten
    obtain ⟨heap, -, hwritten⟩ := bind_eq_ok.1 hwritten
    rw [← pure_eq_ok.1 hwritten]

end Machine

end HeapScript
