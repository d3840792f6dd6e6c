import HeapScript.Proofs.Machine.Results
import HeapScript.Proofs.Value.Accepts

/-!
# Element types of arrays

An array carries the type of its elements as a tag.

* `Value.Truthful`: the tag accepts the type of every element.
* `truthful_arrayOf` and `truthful_binary`: array literals and operators make no array
  of which that is not true.
* `truthful_retag`: nor does the tag that a declared type prescribes, on an array whose
  own tag is definite.
-/

namespace HeapScript

namespace Value

variable {a b v : Value} {tag element : Ty} {items : List Value}

/-- The tag of an array accepts the type of every element. -/
def Truthful (v : Value) : Prop :=
  ∀ element items, v = array element items → ∀ x ∈ items, element.accepts x.type

theorem truthful_array : (array tag items).Truthful ↔ ∀ x ∈ items, tag.accepts x.type := by
  refine ⟨fun h => h tag items rfl, ?_⟩
  rintro h _ _ ⟨⟩
  exact h

/-- One of two operands is an array with the tag, and has the value as an element. -/
def ElementUnder (tag : Ty) (a b x : Value) : Prop :=
  ∃ items, (a = array tag items ∨ b = array tag items) ∧ x ∈ items

/-- Where the tag and the elements of an array come from that an operator makes: the tag
is that of an operand, and accepts what was no element of an operand with that tag. -/
def MergedFrom (a b : Value) (tag : Ty) (items : List Value) : Prop :=
  (∃ xs, a = array tag xs ∨ b = array tag xs) ∧
    ∀ x ∈ items, ElementUnder tag a b x ∨ tag.accepts x.type

theorem not_isScalar_array (tag : Ty) (items : List Value) : ¬(array tag items).IsScalar := nofun

theorem accepts_of_fitsElement (h : fitsElement tag v = true) : tag.accepts v.type := by
  rw [fitsElement.eq_def] at h
  split at h
  · cases h
  · exact h

theorem mergedFrom_add (h : add a b = .ok (array tag items)) : MergedFrom a b tag items := by
  rw [add.eq_def] at h
  split at h
  · cases h
  · split at h
    · rename_i hfits
      cases h
      refine ⟨⟨_, .inl rfl⟩, fun x hx => ?_⟩
      rcases List.mem_append.1 hx with hx | hx
      · exact .inl ⟨_, .inl rfl, hx⟩
      · rw [List.mem_singleton.1 hx]
        exact .inr (accepts_of_fitsElement hfits)
    · cases h
  · split at h
    · rename_i hfits
      cases h
      refine ⟨⟨_, .inr rfl⟩, fun x hx => ?_⟩
      rcases List.mem_cons.1 hx with rfl | hx
      · exact .inr (accepts_of_fitsElement hfits)
      · exact .inl ⟨_, .inr rfl, hx⟩
    · cases h
  · exact absurd (concat_eq_ok h) (not_isScalar_array _ _)
  · exact absurd (concat_eq_ok h) (not_isScalar_array _ _)
  · cases h

theorem mergedFrom_sub (h : sub a b = .ok (array tag items)) : MergedFrom a b tag items := by
  rw [sub.eq_def] at h
  split at h
  · split at h <;> cases h
  · split at h
    · split at h
      · split at h
        · cases h
          exact ⟨⟨_, .inl rfl⟩, fun x hx => .inl ⟨_, .inl rfl, List.mem_of_mem_eraseIdx hx⟩⟩
        · cases h
      · cases h
    · cases h
  · cases h

theorem mergedFrom_xor (h : xor a b = .ok (array tag items)) : MergedFrom a b tag items := by
  rw [xor.eq_def] at h
  split at h
  · split at h
    · rename_i htag
      cases h
      subst htag
      refine ⟨⟨_, .inl rfl⟩, fun x hx => .inl ?_⟩
      rcases List.mem_append.1 hx with hx | hx
      · exact ⟨_, .inl rfl, hx⟩
      · exact ⟨_, .inr rfl, hx⟩
    · cases h
  · exact absurd (bitwise_eq_ok h) (not_isScalar_array _ _)

theorem mergedFrom_binary {op : BinaryOp} (h : binary op a b = .ok (array tag items)) :
    MergedFrom a b tag items := by
  have hscalar := not_isScalar_array tag items
  cases op with
  | add => exact mergedFrom_add h
  | sub => exact mergedFrom_sub h
  | bitXor => exact mergedFrom_xor h
  | mul | div | mod =>
    rw [binary] at h
    exact absurd (arithmetic_eq_ok h) hscalar
  | bitAnd | bitOr | shiftLeft | shiftRight =>
    rw [binary] at h
    exact absurd (bitwise_eq_ok h) hscalar
  | and | or => exact absurd (logic_eq_ok h) hscalar
  | eq | notEq | gt | lt | gtEq | ltEq => exact absurd (map_bool_eq_ok h) hscalar

/-- Operators make only arrays that are truthful if their operands are. -/
theorem truthful_binary {op : BinaryOp} (ha : a.Truthful) (hb : b.Truthful)
    (h : binary op a b = .ok v) : v.Truthful := by
  rintro tag items rfl x hx
  rcases (mergedFrom_binary h).2 x hx with ⟨xs, rfl | rfl, hxs⟩ | haccepts
  · exact ha _ _ rfl x hxs
  · exact hb _ _ rfl x hxs
  · exact haccepts

/-- Array literals are truthful. -/
theorem truthful_arrayOf (h : arrayOf items = .ok v) : v.Truthful := by
  rcases arrayOf_eq_ok h with ⟨-, rfl⟩ | ⟨first, rest, -, rfl, hall⟩
  · exact truthful_array.2 (by simp)
  · exact truthful_array.2 hall

/-- An array keeps to its tag when an element becomes a value that its slot accepts. -/
theorem truthful_replace {part new : Value} {s : Step} {ty : Ty} {holdsRef : Bool}
    (hv : v.Truthful) (h : v.enter s = .ok (part, ty, holdsRef)) (hnew : ty.accepts new.type) :
    (v.replace s new).Truthful := by
  cases s with
  | member name =>
    obtain ⟨className, layout, members, i, p, rfl, hi, -⟩ := enter_member h
    simp only [replace, hi]
    rintro _ _ ⟨⟩
  | index idx =>
    obtain ⟨items, i, rfl, hi, -⟩ := enter_index h
    simp only [replace, hi]
    refine truthful_array.2 fun x hx => ?_
    rcases List.mem_or_eq_of_mem_set hx with hx | rfl
    · exact hv _ _ rfl x hx
    · exact hnew

/-- An array with a definite tag keeps to the tag that a declared type prescribes: that
one accepts the old one, and so the types of the elements. -/
theorem truthful_retag (hv : (array tag items).Truthful) (htag : tag.isDefinite)
    (h : (Ty.array element).accepts (.array tag)) :
    (array element (items.map (retag element))).Truthful := by
  refine truthful_array.2 fun x hx => ?_
  obtain ⟨y, hy, rfl⟩ := List.mem_map.1 hx
  obtain ⟨_, ⟨⟩, hvar | haccepts⟩ := Ty.array_accepts_iff.1 h
  · exact absurd hvar (Ty.ne_var_of_isDefinite htag)
  · exact accepts_type_retag (Ty.accepts_trans haccepts (hv _ _ rfl y hy) htag)

end Value

end HeapScript
