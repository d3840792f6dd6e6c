import HeapScript.Proofs.Machine.Place

/-!
# Values inside values

The elements of arrays and the members of objects, at any depth, and where those of
a result come from.

* `Value.Has` says that a value occurs in another, `Value.Every` that a property
  holds of every one that does.
* `binary_eq_ok`: the result of an operator is a scalar, or an array made of the
  operands and their elements.
* `Every.retag` and `Every.setAt`: a property that single steps keep is kept when a
  value is retagged and when a part of it is replaced.
-/

namespace HeapScript

namespace Value

/-- The elements of an array or the members of an object. -/
def parts : Value → List Value
  | array _ items => items
  | object _ _ members => members
  | _ => []

/-- The elements of an array. -/
def elements : Value → List Value
  | array _ items => items
  | _ => []

/-- The second value occurs in the first. -/
inductive Has : Value → Value → Prop
  | self (v : Value) : Has v v
  | part {v w x : Value} : w ∈ v.parts → w.Has x → Has v x

/-- The property holds of every value in the value. -/
def Every (P : Value → Prop) (v : Value) : Prop :=
  ∀ x, v.Has x → P x

/-- Numbers, texts, truth values and void. -/
def IsScalar : Value → Prop
  | num _ | str _ | bool _ | void => True
  | _ => False

/-- The value is a reference. -/
def IsRef (v : Value) : Prop :=
  ∃ index, v = ref index

variable {P Q : Value → Prop} {v w new : Value}

theorem every_iff : v.Every P ↔ P v ∧ ∀ w ∈ v.parts, w.Every P := by
  refine ⟨fun h => ⟨h v (.self v), fun w hw x hx => h x (.part hw hx)⟩, fun ⟨hv, hp⟩ x hx => ?_⟩
  cases hx with
  | self => exact hv
  | part hw hx => exact hp _ hw x hx

theorem Every.self (h : v.Every P) : P v := (every_iff.1 h).1

theorem Every.part (h : v.Every P) (hw : w ∈ v.parts) : w.Every P := (every_iff.1 h).2 w hw

theorem Every.imp (h : v.Every P) (hPQ : ∀ x, P x → Q x) : v.Every Q :=
  fun x hx => hPQ x (h x hx)

/-- A value without parts is all there is to it. -/
theorem every_of_parts_eq_nil (hp : v.parts = []) (h : P v) : v.Every P :=
  every_iff.2 ⟨h, by simp [hp]⟩

theorem mem_parts_of_mem_elements (h : w ∈ v.elements) : w ∈ v.parts := by
  cases v <;> first | exact h | cases h

theorem IsScalar.parts_eq_nil (h : v.IsScalar) : v.parts = [] := by
  cases v <;> first | rfl | cases h

theorem IsScalar.not_isRef (h : v.IsScalar) : ¬v.IsRef := by
  rintro ⟨index, rfl⟩
  exact h

/-! ## Operators -/

theorem concat_eq_ok {a b : Value} (h : concat a b = .ok v) : v.IsScalar := by
  rw [concat] at h
  split at h
  · cases h
    trivial
  · cases h

/-- Where the elements of a result come from. -/
def MadeOf (a b v : Value) : Prop :=
  v.IsScalar ∨ ∃ tag items, v = array tag items ∧
    ∀ x ∈ items, x ∈ a.elements ∨ x ∈ b.elements ∨ x = a ∨ x = b

theorem add_eq_ok {a b : Value} (h : add a b = .ok v) : MadeOf a b v := by
  rw [add.eq_def] at h
  split at h
  · cases h
    exact .inl trivial
  · rename_i tag xs
    split at h
    · cases h
      refine .inr ⟨tag, _, rfl, fun x hx => ?_⟩
      rcases List.mem_append.1 hx with hx | hx
      · exact .inl hx
      · exact .inr (.inr (.inr (List.mem_singleton.1 hx)))
    · cases h
  · rename_i tag xs _
    split at h
    · cases h
      refine .inr ⟨tag, _, rfl, fun x hx => ?_⟩
      rcases List.mem_cons.1 hx with hx | hx
      · exact .inr (.inr (.inl hx))
      · exact .inr (.inl hx)
    · cases h
  · exact .inl (concat_eq_ok h)
  · exact .inl (concat_eq_ok h)
  · cases h

theorem sub_eq_ok {a b : Value} (h : sub a b = .ok v) : MadeOf a b v := by
  rw [sub.eq_def] at h
  split at h
  · split at h
    · cases h
      exact .inl trivial
    · cases h
  · rename_i tag xs
    split at h
    · split at h
      · split at h
        · cases h
          exact .inr ⟨tag, _, rfl, fun x hx => .inl (List.mem_of_mem_eraseIdx hx)⟩
        · cases h
      · cases h
    · cases h
  · cases h

theorem arithmetic_eq_ok {op : BinaryOp} {a b : Value} (h : arithmetic op a b = .ok v) :
    v.IsScalar := by
  rw [arithmetic.eq_def] at h
  repeat' split at h
  all_goals cases h <;> trivial

theorem bitwise_eq_ok {op : BinaryOp} {a b : Value} (h : bitwise op a b = .ok v) :
    v.IsScalar := by
  rw [bitwise.eq_def] at h
  repeat' split at h
  all_goals cases h <;> trivial

theorem xor_eq_ok {a b : Value} (h : xor a b = .ok v) : MadeOf a b v := by
  rw [xor.eq_def] at h
  split at h
  · rename_i tag xs _ ys
    split at h
    · cases h
      refine .inr ⟨tag, _, rfl, fun x hx => ?_⟩
      rcases List.mem_append.1 hx with hx | hx
      · exact .inl hx
      · exact .inr (.inl hx)
    · cases h
  · exact .inl (bitwise_eq_ok h)

theorem logic_eq_ok {op : BinaryOp} {f : Bool → Bool → Bool} {a b : Value}
    (h : logic op f a b = .ok v) : v.IsScalar := by
  rw [logic.eq_def] at h
  split at h <;> cases h
  trivial

theorem map_bool_eq_ok {x : Except Fault Bool} {f : Bool → Bool}
    (h : (x.map fun b => bool (f b)) = .ok v) : v.IsScalar := by
  obtain ⟨b, -, rfl⟩ := map_eq_ok.1 h
  trivial

/-- The result of a binary operator is a scalar or an array of what the operands
hold. -/
theorem binary_eq_ok {op : BinaryOp} {a b : Value} (h : binary op a b = .ok v) :
    MadeOf a b v := by
  cases op with
  | add => exact add_eq_ok h
  | sub => exact sub_eq_ok h
  | bitXor => exact xor_eq_ok h
  | mul | div | mod =>
    rw [binary] at h
    exact .inl (arithmetic_eq_ok h)
  | bitAnd | bitOr | shiftLeft | shiftRight =>
    rw [binary] at h
    exact .inl (bitwise_eq_ok h)
  | and | or => exact .inl (logic_eq_ok h)
  | eq | notEq | gt | lt | gtEq | ltEq => exact .inl (map_bool_eq_ok h)

theorem unary_eq_ok {op : UnaryOp} {a : Value} (h : unary op a = .ok v) : v.IsScalar := by
  rw [unary.eq_def] at h
  repeat' split at h
  all_goals cases h <;> trivial

/-! ## Retagging -/

theorem retag_isRef {ty : Ty} : (v.retag ty).IsRef ↔ v.IsRef := by
  rw [retag.eq_def]
  split
  · split <;> simp [IsRef]
  · rfl

theorem retag_of_isRef (hv : v.IsRef) (ty : Ty) : v.retag ty = v := by
  obtain ⟨index, rfl⟩ := hv
  cases ty <;> rfl

/-- A property that holds of an array with other element type and retagged elements
holds of retagged values. -/
theorem Every.retag (hP : ∀ element tag items, P (array tag items) →
      P (array element (items.map (retag element))))
    (h : v.Every P) (ty : Ty) : (v.retag ty).Every P := by
  induction ty generalizing v with
  | named name => exact h
  | array element ih =>
    cases v with
    | array tag items =>
      rw [Value.retag]
      split
      · exact h
      · refine every_iff.2 ⟨hP element tag items h.self, fun w hw => ?_⟩
        obtain ⟨x, hx, rfl⟩ := List.mem_map.1 hw
        exact ih (h.part hx)
    | _ => exact h

/-! ## Parts -/

theorem enter_mem_parts {part : Value} {s : Step} {ty : Ty} {holdsRef : Bool}
    (h : v.enter s = .ok (part, ty, holdsRef)) : part ∈ v.parts := by
  cases s with
  | member name =>
    obtain ⟨_, _, _, _, _, rfl, -, -, hm, -, -⟩ := enter_member h
    exact List.mem_of_getElem? hm
  | index idx =>
    obtain ⟨_, _, rfl, -, hm, -⟩ := enter_index h
    exact List.mem_of_getElem? hm

/-- What a replacement leaves of the parts. -/
theorem mem_parts_replace {s : Step} (h : w ∈ (v.replace s new).parts) :
    w ∈ v.parts ∨ w = new := by
  rw [replace.eq_def] at h
  split at h
  · split at h
    · exact List.mem_or_eq_of_mem_set h
    · exact .inl h
  · split at h
    · exact List.mem_or_eq_of_mem_set h
    · exact .inl h
  · exact .inl h

theorem not_isRef_replace {part : Value} {s : Step} {ty : Ty} {holdsRef : Bool}
    (h : v.enter s = .ok (part, ty, holdsRef)) : ¬(v.replace s new).IsRef := by
  cases s with
  | member name =>
    obtain ⟨className, layout, members, i, p, rfl, hi, -⟩ := enter_member h
    simp [replace, hi, IsRef]
  | index idx =>
    obtain ⟨items, i, rfl, hi, -⟩ := enter_index h
    simp [replace, hi, IsRef]

theorem setAt_cons {s : Step} {r : List Step} (h : v.setAt (s :: r) new = .ok w) :
    ∃ part ty holdsRef part', v.enter s = .ok (part, ty, holdsRef) ∧
      part.setAt r new = .ok part' ∧ w = v.replace s part' := by
  rw [setAt] at h
  split at h
  · cases h
  · rename_i part ty holdsRef he
    obtain ⟨part', hp, rfl⟩ := map_eq_ok.1 h
    exact ⟨part, ty, holdsRef, part', he, hp, rfl⟩

/-- The path leads to a place where a reference may stand: not to an element. -/
def HoldsRefs (path : List Step) : Prop :=
  path = [] ∨ ∃ name, path.getLast? = some (.member name)

/-- A property is kept when a part is replaced, if one step of a replacement keeps
it; an element is never replaced by a reference. -/
theorem Every.setAt (hP : ∀ {v part new s ty holdsRef}, v.enter s = .ok (part, ty, holdsRef) →
      P v → (new.IsRef → ∃ name, s = .member name) → P (v.replace s new))
    {path : List Step} (h : v.setAt path new = .ok w) (hv : v.Every P) (hnew : new.Every P)
    (href : new.IsRef → HoldsRefs path) : w.Every P := by
  induction path generalizing v w with
  | nil =>
    cases h
    exact hnew
  | cons s r ih =>
    obtain ⟨part, ty, holdsRef, part', he, hset, rfl⟩ := setAt_cons h
    have hrest : new.IsRef → HoldsRefs r := by
      intro hn
      cases r with
      | nil => exact .inl rfl
      | cons s' r' =>
        rcases href hn with h | ⟨name, h⟩
        · cases h
        · exact .inr ⟨name, by rwa [List.getLast?_cons_cons] at h⟩
    have hpart := ih hset (hv.part (enter_mem_parts he)) hrest
    refine every_iff.2 ⟨hP he hv.self fun hp => ?_, fun x hx => ?_⟩
    · -- a reference comes in by the last step only
      cases r with
      | nil =>
        cases hset
        rcases href hp with h | ⟨name, h⟩
        · cases h
        · exact ⟨name, by simpa using h⟩
      | cons s' r' =>
        obtain ⟨_, _, _, _, he', -, rfl⟩ := setAt_cons hset
        exact absurd hp (not_isRef_replace he')
    · rcases mem_parts_replace hx with hx | rfl
      · exact hv.part hx
      · exact hpart

end Value

end HeapScript
