import HeapScript.Proofs.Heap.Chain
import HeapScript.Proofs.Machine.Slot
import HeapScript.Value.Display

/-!
# Values apart from their tags

The element types that arrays carry are all that a declared type changes in a value.

* `Value.untagged` forgets them, at every depth. The text of a value, its parts and the
  chunks it refers to do not depend on them.
* `untagged_retag` and `retag_retag`: a declared type changes tags only, and a second time
  it changes nothing.
* `conform_only_retags` puts this together for the check of a value against a type.
-/

namespace HeapScript

namespace Value

/-! ## Forgetting tags -/

mutual

/-- The value with all its arrays, at every depth, as arrays of `var`. -/
def untagged : Value → Value
  | array _ items => array .var (untaggedAll items)
  | object className layout members => object className layout (untaggedAll members)
  | v => v

/-- Several values without their tags. -/
def untaggedAll : List Value → List Value
  | [] => []
  | v :: vs => untagged v :: untaggedAll vs

end

theorem untaggedAll_eq_map (vs : List Value) : untaggedAll vs = vs.map untagged := by
  induction vs with
  | nil => rfl
  | cons v vs ih => rw [untaggedAll, ih, List.map_cons]

variable {v w : Value}

theorem parts_untagged (v : Value) : v.untagged.parts = v.parts.map untagged := by
  cases v with
  | array tag items => exact untaggedAll_eq_map items
  | object className layout members => exact untaggedAll_eq_map members
  | _ => rfl

mutual

/-- A text shows no tags. -/
theorem render_untagged (f : Nat → String) : ∀ v : Value, v.untagged.render f = v.render f
  | array _ items => by rw [untagged, render, render, renderAll_untagged f items]
  | object _ layout members => by
    rw [untagged, render, render, renderMembers_untagged f layout members, untaggedAll_eq_map,
      List.isEmpty_map]
  | num _ | str _ | bool _ | function _ | classDef _ | ref _ | ident _ | void | unknown => by
    simp only [untagged]

theorem renderAll_untagged (f : Nat → String) : ∀ vs : List Value,
    renderAll f (untaggedAll vs) = renderAll f vs
  | [] => rfl
  | v :: vs => by
    rw [untaggedAll, renderAll, renderAll, render_untagged f v, renderAll_untagged f vs]

theorem renderMembers_untagged (f : Nat → String) : ∀ (layout : List Param) (vs : List Value),
    renderMembers f layout (untaggedAll vs) = renderMembers f layout vs
  | [], _ => by simp only [renderMembers]
  | _ :: _, [] => by rw [untaggedAll]
  | p :: ps, v :: vs => by
    rw [untaggedAll, renderMembers, renderMembers, render_untagged f v,
      renderMembers_untagged f ps vs]

end

mutual

theorem refs_untagged : ∀ v : Value, v.untagged.refs = v.refs
  | array _ items => by rw [untagged, refs, refs, refsAll_untagged items]
  | object _ _ members => by rw [untagged, refs, refs, refsAll_untagged members]
  | num _ | str _ | bool _ | function _ | classDef _ | ref _ | ident _ | void | unknown => by
    simp only [untagged]

theorem refsAll_untagged : ∀ vs : List Value, refsAll (untaggedAll vs) = refsAll vs
  | [] => rfl
  | v :: vs => by rw [untaggedAll, refsAll, refsAll, refs_untagged v, refsAll_untagged vs]

end

/-! ## Values that differ in tags only -/

theorem display_eq_of_untagged (h : v.untagged = w.untagged) (heap : Heap) :
    heap.display v = heap.display w := by
  rw [Heap.display, Heap.display, ← render_untagged _ v, h, render_untagged]

theorem refs_eq_of_untagged (h : v.untagged = w.untagged) : v.refs = w.refs := by
  rw [← refs_untagged v, h, refs_untagged]

theorem parts_eq_of_untagged (h : v.untagged = w.untagged) :
    v.parts.map untagged = w.parts.map untagged := by
  rw [← parts_untagged v, h, parts_untagged]

/-! ## Retagging -/

theorem retag_array {element tag : Ty} {items : List Value} (h : element ≠ .var) :
    (array tag items).retag (.array element) = array element (items.map (retag element)) := by
  rw [retag, if_neg h]

theorem retag_eq_self_or (declared : Ty) (v : Value) : v.retag declared = v ∨
    ∃ element tag items, declared = .array element ∧ element ≠ .var ∧ v = array tag items := by
  rw [retag.eq_def]
  split
  · rename_i element tag items
    by_cases h : element = .var
    · exact .inl (if_pos h)
    · exact .inr ⟨element, tag, items, rfl, h, rfl⟩
  · exact .inl rfl

/-- What a declared type changes in a value are tags. -/
theorem untagged_retag (declared : Ty) (v : Value) : (v.retag declared).untagged = v.untagged := by
  induction declared generalizing v with
  | named name => rfl
  | array element ih =>
    rcases retag_eq_self_or (.array element) v with h | ⟨_, tag, items, ⟨⟩, hvar, rfl⟩
    · rw [h]
    · rw [retag_array hvar, untagged, untagged, untaggedAll_eq_map, untaggedAll_eq_map,
        List.map_map]
      exact congrArg _ (List.map_congr_left fun x _ => ih x)

/-- What has the tags of a declared type keeps them. -/
theorem retag_retag (declared : Ty) (v : Value) :
    (v.retag declared).retag declared = v.retag declared := by
  induction declared generalizing v with
  | named name => rfl
  | array element ih =>
    rcases retag_eq_self_or (.array element) v with h | ⟨_, tag, items, ⟨⟩, hvar, rfl⟩
    · rw [h, h]
    · rw [retag_array hvar, retag_array hvar, List.map_map]
      exact congrArg _ (List.map_congr_left fun x _ => ih x)

end Value

/-! ## Conforming -/

namespace Heap

variable {h : Heap} {declared : Ty} {v w : Value}

theorem conform_of_accepts (ha : declared.accepts (h.typeOf v)) :
    h.conform declared v = .ok (v.retag declared) :=
  if_pos ha

/-- A slot that accepts what a value leads to accepts what the retagged value leads to. -/
theorem accepts_typeOf_retag (ha : declared.accepts (h.typeOf v)) :
    declared.accepts (h.typeOf (v.retag declared)) := by
  by_cases hr : v.IsRef
  · rwa [Value.retag_of_isRef hr]
  · rw [typeOf_of_not_isRef hr] at ha
    rw [typeOf_of_not_isRef fun h => hr (Value.retag_isRef.1 h)]
    exact Value.accepts_type_retag ha

/-- Checking a value against a type changes its tags and nothing else: what comes out shows
the same text, has the same parts and refers to the same chunks. It fits the type, and
checking it again changes nothing. The check fails exactly for what does not fit. -/
theorem conform_only_retags {t : Ty} (ht : h.HasType v t) :
    ((∃ w, h.conform declared v = .ok w) ↔ declared.accepts t) ∧
      (¬declared.accepts t → h.conform declared v = .error (.typeMismatch declared.text t.text)) ∧
      ∀ w, h.conform declared v = .ok w →
        w.untagged = v.untagged ∧
        (∀ h' : Heap, h'.display w = h'.display v) ∧
        w.parts.map Value.untagged = v.parts.map Value.untagged ∧
        w.refs = v.refs ∧
        (∃ u, h.HasType w u ∧ declared.accepts u) ∧
        h.conform declared w = .ok w ∧
        ∀ element tag items, declared = .array element → element ≠ .var →
          v = .array tag items → w.type = declared := by
  obtain rfl := ht.eq_typeOf
  refine ⟨⟨?_, fun ha => ⟨_, conform_of_accepts ha⟩⟩, fun ha => if_neg ha, fun w hw => ?_⟩
  · rintro ⟨w, hw⟩
    exact (conform_eq_ok hw).1
  · obtain ⟨ha, rfl⟩ := conform_eq_ok hw
    have hsame := Value.untagged_retag declared v
    have ha' := accepts_typeOf_retag ha
    have htype : h.HasType (v.retag declared) (h.typeOf (v.retag declared)) := by
      by_cases hr : v.IsRef
      · rwa [Value.retag_of_isRef hr]
      · have hr' : ¬(v.retag declared).IsRef := fun h => hr (Value.retag_isRef.1 h)
        rw [typeOf_of_not_isRef hr']
        exact .data hr'
    have hagain : h.conform declared (v.retag declared) = .ok (v.retag declared) := by
      rw [conform_of_accepts ha', Value.retag_retag]
    refine ⟨hsame, Value.display_eq_of_untagged hsame, Value.parts_eq_of_untagged hsame,
      Value.refs_eq_of_untagged hsame, ⟨_, htype, ha'⟩, hagain, ?_⟩
    rintro element tag items rfl hvar rfl
    rw [Value.retag_array hvar, Value.type]

/-- The array `[[], [1]]`, as it is written. -/
def nestedArrays : Value := .array (.array .var) [.array .var [], .array .int [.num 1]]

/-- As a `num[][]` the array `[[], [1]]` has other tags, and no other text. -/
theorem conform_only_retags_nestedArrays : ∃ w,
    conform {} (.array (.array .num)) nestedArrays = .ok w ∧ w.type = .array (.array .num) ∧
      nestedArrays.type ≠ w.type ∧ w.untagged = nestedArrays.untagged ∧
      display {} w = display {} nestedArrays := by
  have htype : HasType {} nestedArrays (.array (.array .var)) := .data (by rintro ⟨i, ⟨⟩⟩)
  have hok : ∃ w, conform {} (.array (.array .num)) nestedArrays = .ok w :=
    (conform_only_retags htype).1.2 (by decide)
  obtain ⟨w, hw⟩ := hok
  obtain ⟨hsame, hdisplay, -, -, -, -, hnum⟩ := (conform_only_retags htype).2.2 w hw
  have hw' : w.type = .array (.array .num) := hnum _ _ _ rfl (by decide) rfl
  refine ⟨w, hw, hw', ?_, hsame, hdisplay _⟩
  rw [hw']
  decide

end Heap

end HeapScript
