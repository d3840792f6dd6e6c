import HeapScript.Proofs.Heap.Mark
import HeapScript.Proofs.Value.Occurs
import HeapScript.Value.Display

/-!
# References inside values

* `render_congr`: the text of a value depends on the texts of the references in it.
* `Value.replaceRefs` puts values in the place of references, at every depth, and
  `render_replaceRefs` is the text of the result.
-/

namespace HeapScript

namespace Value

variable {f g : Nat → String}

theorem has_iff {v x : Value} : v.Has x ↔ x = v ∨ ∃ w ∈ v.parts, w.Has x := by
  constructor
  · rintro (_ | ⟨hw, hx⟩)
    · exact .inl rfl
    · exact .inr ⟨_, hw, hx⟩
  · rintro (rfl | ⟨w, hw, hx⟩)
    · exact .self _
    · exact .part hw hx

/-- A value mentions what is mentioned in it. -/
theorem Has.mentions {v x : Value} {i : Nat} (h : v.Has x) (hx : x.Mentions i) : v.Mentions i := by
  induction h with
  | self => exact hx
  | @part v w x hw _ ih =>
    cases v with
    | array tag items => exact .element hw (ih hx)
    | object className layout members => exact .member hw (ih hx)
    | _ => cases hw

mutual

/-- The text of a value depends on the texts of the references in it. -/
theorem render_congr : ∀ v : Value, (∀ i, v.Has (.ref i) → f i = g i) → v.render f = v.render g
  | array _ items, h => by
    rw [render, render, renderAll_congr items fun v hv i hi => h i (.part hv hi)]
  | object _ layout members, h => by
    rw [render, render, renderMembers_congr layout members fun v hv i hi => h i (.part hv hi)]
  | ref index, h => h index (.self _)
  | num _, _ | str _, _ | bool _, _ | function _, _ | classDef _, _ | ident _, _ | void, _
  | unknown, _ => by simp only [render]

theorem renderAll_congr : ∀ vs : List Value, (∀ v ∈ vs, ∀ i, v.Has (.ref i) → f i = g i) →
    renderAll f vs = renderAll g vs
  | [], _ => rfl
  | v :: vs, h => by
    rw [renderAll, renderAll, render_congr v (h v List.mem_cons_self),
      renderAll_congr vs fun w hw => h w (List.mem_cons_of_mem _ hw)]

theorem renderMembers_congr : ∀ (layout : List Param) (members : List Value),
    (∀ v ∈ members, ∀ i, v.Has (.ref i) → f i = g i) →
    renderMembers f layout members = renderMembers g layout members
  | [], _, _ => by simp only [renderMembers]
  | _ :: _, [], _ => by simp only [renderMembers]
  | p :: ps, v :: vs, h => by
    rw [renderMembers, renderMembers, render_congr v (h v List.mem_cons_self),
      renderMembers_congr ps vs fun w hw => h w (List.mem_cons_of_mem _ hw)]

end

/-! ## Replacing references -/

mutual

/-- The value with other values in the place of its references. -/
def replaceRefs (new : Nat → Value) : Value → Value
  | array element items => array element (replaceRefsAll new items)
  | object className layout members => object className layout (replaceRefsAll new members)
  | ref index => new index
  | v => v

/-- Several values with others in the place of their references. -/
def replaceRefsAll (new : Nat → Value) : List Value → List Value
  | [] => []
  | v :: vs => replaceRefs new v :: replaceRefsAll new vs

end

theorem isEmpty_replaceRefsAll (new : Nat → Value) (vs : List Value) :
    (replaceRefsAll new vs).isEmpty = vs.isEmpty := by
  cases vs <;> rfl

mutual

/-- What stands in the place of a reference is shown in its place. -/
theorem render_replaceRefs (new : Nat → Value) : ∀ v : Value,
    (v.replaceRefs new).render f = v.render fun i => (new i).render f
  | array _ items => by rw [replaceRefs, render, render, renderAll_replaceRefs new items]
  | object _ layout members => by
    rw [replaceRefs, render, render, renderMembers_replaceRefs new layout members,
      isEmpty_replaceRefsAll]
  | ref index => by rw [replaceRefs, render]
  | num _ | str _ | bool _ | function _ | classDef _ | ident _ | void | unknown => by
    simp only [replaceRefs, render]

theorem renderAll_replaceRefs (new : Nat → Value) : ∀ vs : List Value,
    renderAll f (replaceRefsAll new vs) = renderAll (fun i => (new i).render f) vs
  | [] => rfl
  | v :: vs => by
    rw [replaceRefsAll, renderAll, renderAll, render_replaceRefs new v,
      renderAll_replaceRefs new vs]

theorem renderMembers_replaceRefs (new : Nat → Value) : ∀ (layout : List Param) (vs : List Value),
    renderMembers f layout (replaceRefsAll new vs) =
      renderMembers (fun i => (new i).render f) layout vs
  | [], _ => by simp only [renderMembers]
  | _ :: _, [] => by simp only [replaceRefsAll, renderMembers]
  | p :: ps, v :: vs => by
    rw [replaceRefsAll, renderMembers, renderMembers, render_replaceRefs new v,
      renderMembers_replaceRefs new ps vs]

end

end Value

end HeapScript
