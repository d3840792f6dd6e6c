import HeapScript.Proofs.Heap.Store
import HeapScript.Proofs.Value.Type

/-!
# Slots and what they accept

* `expectReference_eq_ok`: a slot for references accepts a reference to data that fits.
* `Machine.Finds` lists where a walk to a slot can end: at a whole variable or at a
  part of a value, or at the chunk behind a reference that one of these holds.
  `finds_of_locate` says that there is no other case.
* `assignedValue_eq_ok`: what an assignment stores in a slot, and `setAt_concat` what
  becomes of the value that the slot is a part of.
-/

namespace HeapScript

/-! ## Paths -/

namespace Value

variable {v w part whole new : Value} {init : List Step} {s : Step} {ty : Ty} {holdsRef : Bool}

theorem getAt_append (h : v.getAt init = .ok whole) (rest : List Step) :
    v.getAt (init ++ rest) = whole.getAt rest := by
  induction init generalizing v with
  | nil =>
    cases h
    rfl
  | cons t r ih =>
    rw [getAt] at h
    rw [List.cons_append, getAt]
    split at h
    · cases h
    · exact ih h

theorem getAt_concat (h : v.getAt init = .ok whole)
    (he : whole.enter s = .ok (part, ty, holdsRef)) : v.getAt (init ++ [s]) = .ok part := by
  rw [getAt_append h, getAt, he]
  rfl

theorem Every.getAt {P : Value → Prop} (hv : v.Every P) (h : v.getAt init = .ok whole) :
    whole.Every P := by
  induction init generalizing v with
  | nil =>
    cases h
    exact hv
  | cons t r ih =>
    rw [Value.getAt] at h
    split at h
    · cases h
    · rename_i part ty holdsRef he
      exact ih (hv.part (enter_mem_parts he)) h

theorem Every.replace {P : Value → Prop} (hv : v.Every P) (hself : P (v.replace s new))
    (hnew : new.Every P) : (v.replace s new).Every P := by
  refine every_iff.2 ⟨hself, fun x hx => ?_⟩
  rcases mem_parts_replace hx with hx | rfl
  · exact hv.part hx
  · exact hnew

/-- A property is kept when a part is replaced, if the value whose part it is keeps
it, and if a value keeps it when a part of it that is data becomes other data of the
same type. -/
theorem Every.setAt_concat {P : Value → Prop}
    (hstep : ∀ {v part new : Value} {s : Step} {ty : Ty} {holdsRef : Bool}, P v →
      v.enter s = .ok (part, ty, holdsRef) → new.type = part.type → ¬part.IsRef → ¬new.IsRef →
      P (v.replace s new))
    (hget : v.getAt init = .ok whole) (h : v.setAt (init ++ [s]) new = .ok w) (hv : v.Every P)
    (hnew : new.Every P) (hlast : P whole → P (whole.replace s new)) : w.Every P := by
  induction init generalizing v w with
  | nil =>
    cases hget
    obtain ⟨part, ty, holdsRef, part', he, hset, rfl⟩ := setAt_cons h
    cases hset
    exact hv.replace (hlast hv.self) hnew
  | cons t r ih =>
    rw [List.cons_append] at h
    obtain ⟨part, ty, holdsRef, part', he, hset, rfl⟩ := setAt_cons h
    rw [Value.getAt, he] at hget
    have hpart' := ih hget hset (hv.part (enter_mem_parts he))
    -- a step into the part keeps its type, since the path goes on
    obtain ⟨a, l, hl⟩ := List.exists_cons_of_ne_nil (List.append_ne_nil_of_right_ne_nil r
      (List.cons_ne_nil s []))
    rw [hl] at hset
    obtain ⟨htype, hdata', hdata, -⟩ := type_setAt hset
    exact hv.replace (hstep hv.self he htype hdata hdata') hpart'

end Value

namespace Heap

variable {h : Heap} {declared : Ty} {v w : Value}

theorem conform_eq_ok (hw : h.conform declared v = .ok w) :
    declared.accepts (h.typeOf v) ∧ w = v.retag declared := by
  rw [conform] at hw
  split at hw
  · rename_i ha
    cases hw
    exact ⟨ha, rfl⟩
  · cases hw

end Heap

namespace Machine

variable {m : Machine} {v w : Value} {ty : Ty}

/-- A slot for references takes a reference as it is, if it leads to data that fits. -/
theorem expectReference_eq_ok {use : RefUse} (h : m.expectReference ty use v = .ok w) :
    w = v ∧ w.IsRef ∧ ty.accepts (m.heap.typeOf w) := by
  rw [expectReference.eq_def] at h
  split at h
  · rename_i index
    split at h
    · rename_i ha
      cases h
      exact ⟨rfl, ⟨index, rfl⟩, ha⟩
    · cases h
  · cases h

/-! ## Where a walk ends -/

/-- The slots that a walk to a place can find. -/
inductive Finds (m : Machine) (p : Place) : Slot → Prop
  /-- A whole variable that holds data. -/
  | direct {name : String} {x : Variable} : p = .var name → m.writableVariable name = .ok x →
    ¬x.value.IsRef → Finds m p { place := .var name, declared := x.ty, holdsRef := false }
  /-- The chunk that a variable refers to. -/
  | referent {name : String} {x : Variable} {index last : Nat} : p = .var name →
    m.writableVariable name = .ok x → x.value = .ref index → m.heap.terminal index = .ok last →
    Finds m p { place := .chunk last, declared := x.ty, holdsRef := false }
  /-- A member or an element, which holds data or may hold references. -/
  | part {root : Root} {value whole part : Value} {rootTy ty : Ty} {init : List Step} {s : Step}
    {holdsRef : Bool} : p.path.getLast? = some s → m.rootValue root = .ok (value, rootTy) →
    value.getAt init = .ok whole → whole.enter s = .ok (part, ty, holdsRef) →
    holdsRef = true ∨ ¬part.IsRef →
    Finds m p { place := { root, path := init ++ [s] }, declared := ty, holdsRef }
  /-- The chunk that a member or an element refers to although it should hold data. -/
  | stray {root : Root} {value whole : Value} {rootTy ty : Ty} {init : List Step} {s : Step}
    {index last : Nat} : p.path.getLast? = some s → m.rootValue root = .ok (value, rootTy) →
    value.getAt init = .ok whole → whole.enter s = .ok (.ref index, ty, false) →
    m.heap.terminal index = .ok last →
    Finds m p { place := .chunk last, declared := ty, holdsRef := false }

/-- How far a walk has come without crossing a reference since its root. -/
def Walk.At (m : Machine) (w : Walk) : Prop :=
  ∃ value rootTy, m.rootValue w.slot.place.root = .ok (value, rootTy) ∧
    value.getAt w.slot.place.path = .ok w.value

theorem Walk.At.cross {w w' : Walk} (hw : w.At m) (h : m.cross w = .ok w') : w'.At m := by
  rw [Machine.cross] at h
  split at h
  · obtain ⟨last, -, h⟩ := bind_eq_ok.1 h
    obtain ⟨data, hd, h⟩ := bind_eq_ok.1 h
    rw [← pure_eq_ok.1 h]
    exact ⟨data, .var, bind_eq_ok.2 ⟨data, hd, rfl⟩, rfl⟩
  · cases h
    exact hw

/-- The last step of a walk enters a value that was reached without crossing a
reference since the root of the slot. -/
theorem walk_cases {path : List Step} {w w' : Walk} (hw : w.At m) (h : m.walk w path = .ok w') :
    (path = [] ∧ w' = w) ∨
      ∃ root value rootTy init s whole, path.getLast? = some s ∧
        m.rootValue root = .ok (value, rootTy) ∧ value.getAt init = .ok whole ∧
        whole.enter s = .ok (w'.value, w'.slot.declared, w'.slot.holdsRef) ∧
        w'.slot.place = { root, path := init ++ [s] } := by
  induction path generalizing w with
  | nil =>
    cases h
    exact .inl ⟨rfl, rfl⟩
  | cons s r ih =>
    right
    obtain ⟨x, hx, h⟩ := bind_eq_ok.1 h
    obtain ⟨⟨part, ty, holdsRef⟩, he, h⟩ := bind_eq_ok.1 h
    obtain ⟨value, rootTy, hroot, hget⟩ := hw.cross hx
    have hnext : Walk.At m ⟨part, ⟨x.slot.place.push s, ty, holdsRef⟩⟩ :=
      ⟨value, rootTy, hroot, Value.getAt_concat hget he⟩
    rcases ih hnext h with ⟨rfl, rfl⟩ | h
    · exact ⟨_, value, rootTy, _, s, x.value, rfl, hroot, hget, he, rfl⟩
    · obtain ⟨root', value', rootTy', init, t, whole, hlast, h⟩ := h
      refine ⟨root', value', rootTy', init, t, whole, ?_, h⟩
      rw [List.getLast?_cons, hlast]
      rfl

/-- What a walk can find, if it starts at a variable or takes a step. -/
theorem finds_of_locate {p : Place} {slot : Slot} (hp : p.path ≠ [] ∨ ∃ name, p = .var name)
    (h : m.locate p = .ok slot) : m.Finds p slot := by
  obtain ⟨⟨value, ty⟩, hroot, h⟩ := bind_eq_ok.1 h
  obtain ⟨w, hw, h⟩ := bind_eq_ok.1 h
  rcases walk_cases ⟨value, ty, hroot, rfl⟩ hw with ⟨hpath, rfl⟩ |
    ⟨root, rootValue, rootTy, init, s, whole, hlast, hroot, hget, he, hplace⟩
  · obtain ⟨name, rfl⟩ := hp.resolve_left (absurd hpath)
    obtain ⟨x, hx, hroot⟩ := bind_eq_ok.1 hroot
    cases pure_eq_ok.1 hroot
    split at h
    · rename_i index _ hvalue
      obtain ⟨last, hl, h⟩ := bind_eq_ok.1 h
      rw [← pure_eq_ok.1 h]
      exact .referent rfl hx hvalue (mapError_eq_ok.1 hl)
    · rename_i hdata
      rw [← pure_eq_ok.1 h]
      refine .direct rfl hx ?_
      rintro ⟨index, hvalue⟩
      exact hdata index rfl hvalue
  · rcases w with ⟨value, place, ty, holdsRef⟩
    simp only at he hplace h
    subst hplace
    split at h
    · obtain ⟨last, hl, h⟩ := bind_eq_ok.1 h
      rw [← pure_eq_ok.1 h]
      exact .stray hlast hroot hget he (mapError_eq_ok.1 hl)
    · rename_i hdata
      rw [← pure_eq_ok.1 h]
      refine .part hlast hroot hget he ?_
      cases holdsRef with
      | true => exact .inl rfl
      | false =>
        right
        rintro ⟨index, rfl⟩
        exact hdata index rfl rfl

/-- A place that leads to a slot for references ends with a step into a value that has
such a slot. -/
theorem LeadsToRef.enters {p : Place} (h : m.LeadsToRef p) :
    ∃ root value rootTy init s whole part ty, p.path.getLast? = some s ∧
      m.rootValue root = .ok (value, rootTy) ∧ value.getAt init = .ok whole ∧
      whole.enter s = .ok (part, ty, true) := by
  obtain ⟨name, hp⟩ := h.endsInMember
  have hne : p.path ≠ [] := by
    intro hnil
    rw [hnil] at hp
    cases hp
  obtain ⟨slot, hl, hr⟩ := h
  cases finds_of_locate (.inl hne) hl with
  | part hlast hroot hget he _ =>
    cases hr
    exact ⟨_, _, _, _, _, _, _, _, hlast, hroot, hget, he⟩
  | _ => cases hr

/-! ## What is assigned -/

/-- An assignment stores the value it was given, or what the operator makes of the data
there and of the value; in a slot for data as that holds it. -/
theorem assignedValue_eq_ok {slot : Slot} {op : AssignOp} (h : m.assignedValue slot op v = .ok w) :
    ∃ x, (x = v ∨ ∃ binary old a b, m.readPlace slot.place = .ok old ∧ m.resolve old = .ok a ∧
        m.resolve v = .ok b ∧ Value.binary binary a b = .ok x) ∧
      (slot.holdsRef = true → w = x ∧ w.IsRef ∧ slot.declared.accepts (m.heap.typeOf w)) ∧
      (slot.holdsRef = false →
        slot.declared.accepts (m.heap.typeOf x) ∧ w = x.retag slot.declared) := by
  have hstore : ∀ x, (if slot.holdsRef then m.expectReference slot.declared .memberSlot x
        else m.heap.conform slot.declared x) = .ok w →
      (slot.holdsRef = true → w = x ∧ w.IsRef ∧ slot.declared.accepts (m.heap.typeOf w)) ∧
        (slot.holdsRef = false →
          slot.declared.accepts (m.heap.typeOf x) ∧ w = x.retag slot.declared) := by
    intro x hx
    refine ⟨fun hr => ?_, fun hr => ?_⟩
    · rw [hr] at hx
      exact expectReference_eq_ok hx
    · rw [hr] at hx
      exact Heap.conform_eq_ok hx
  rw [assignedValue] at h
  split at h
  · rename_i binary _
    obtain ⟨old, hold, h⟩ := bind_eq_ok.1 h
    obtain ⟨a, ha, h⟩ := bind_eq_ok.1 h
    obtain ⟨b, hb, h⟩ := bind_eq_ok.1 h
    obtain ⟨x, hx, h⟩ := bind_eq_ok.1 h
    exact ⟨x, .inr ⟨binary, old, a, b, hold, ha, hb, hx⟩, hstore x h⟩
  · exact ⟨v, .inl rfl, hstore v h⟩

/-- A write to a place puts another value in the place of a variable's or a chunk's. -/
theorem writePlace_cases {m' : Machine} {p : Place} (h : m.writePlace p w = .ok m') :
    ∃ old new rootTy, m.rootValue p.root = .ok (old, rootTy) ∧ old.setAt p.path w = .ok new ∧
      ((∃ name, p.root = .var name ∧ m' = m.modifyFrame (·.assign name new)) ∨
        ∃ index heap, p.root = .chunk index ∧ m.heap.write index new = .ok heap ∧
          m' = { m with heap }) := by
  obtain ⟨⟨old, rootTy⟩, hold, h⟩ := bind_eq_ok.1 h
  obtain ⟨new, hnew, h⟩ := bind_eq_ok.1 h
  refine ⟨old, new, rootTy, hold, hnew, ?_⟩
  rcases p with ⟨name | index, path⟩
  · exact .inl ⟨name, rfl, (pure_eq_ok.1 h).symm⟩
  · obtain ⟨heap, hheap, h⟩ := bind_eq_ok.1 h
    exact .inr ⟨index, heap, rfl, mapError_eq_ok.1 hheap, (pure_eq_ok.1 h).symm⟩

end Machine

end HeapScript
