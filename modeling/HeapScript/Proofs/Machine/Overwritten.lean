import HeapScript.Proofs.Machine.Outcome
import HeapScript.Proofs.Machine.Slot
import HeapScript.Proofs.Machine.Variables

/-!
# What an assignment overwrites

An assignment changes the value at one position inside one variable or one chunk, or
nothing at all.

* `Value.Overwritten` says this of two values, `Frame.Overwritten` and `Heap.Overwritten`
  of what holds them, and `Machine.Overwritten` of two machines.
* `exists_readPlace_of_locate`: what a walk finds can be read. From there on
  `exists_overwritten` carries the path through every later access.
* `assign_overwrites_one_slot` puts these together.
-/

namespace HeapScript

/-! ## Values -/

namespace Value

variable {v w x old new : Value} {path init rest : List Step} {s : Step}

/-- The second value is the first with a new part at the end of a path. The path goes
through objects and arrays only; their other members and elements stay. -/
inductive Overwritten (old new : Value) : List Step → Value → Value → Prop
  | whole : Overwritten old new [] old new
  | member {name className : String} {layout : List Param} {members : List Value} {i : Nat}
    {x y : Value} {r : List Step} : memberPosition? layout name = some i → members[i]? = some x →
    Overwritten old new r x y → Overwritten old new (.member name :: r)
      (object className layout members) (object className layout (members.set i y))
  | element {idx : Value} {ty : Ty} {items : List Value} {i : Nat} {x y : Value} {r : List Step} :
    checkedIndex idx items.length = .ok i → items[i]? = some x → Overwritten old new r x y →
    Overwritten old new (.index idx :: r) (array ty items) (array ty (items.set i y))

/-- The member at the position that a layout gives its name is the one that is entered. -/
theorem enter_object {name className : String} {layout : List Param} {members : List Value}
    {i : Nat} (hi : memberPosition? layout name = some i) (hx : members[i]? = some x) :
    ∃ ty holdsRef, (object className layout members).enter (.member name) =
      .ok (x, ty, holdsRef) := by
  have hlt : i < layout.length := (List.findIdx?_eq_some_iff_getElem.1 hi).1
  refine ⟨layout[i].ty, layout[i].isRef, ?_⟩
  simp only [enter, hi, List.getElem?_eq_getElem hlt, hx]

/-- The element at the position that an index names is the one that is entered. -/
theorem enter_array {idx : Value} {ty : Ty} {items : List Value} {i : Nat}
    (hi : checkedIndex idx items.length = .ok i) (hx : items[i]? = some x) :
    (array ty items).enter (.index idx) = .ok (x, ty, false) := by
  simp only [enter, hi, hx]

/-- Where a part can be read it can be overwritten. -/
theorem exists_overwritten (h : v.getAt path = .ok old) (new : Value) :
    ∃ w, v.setAt path new = .ok w ∧ Overwritten old new path v w := by
  induction path generalizing v with
  | nil =>
    cases h
    exact ⟨new, rfl, .whole⟩
  | cons s r ih =>
    rw [getAt] at h
    split at h
    · cases h
    · rename_i part ty holdsRef he
      obtain ⟨y, hy, hpart⟩ := ih h
      refine ⟨v.replace s y, by rw [setAt, he]; exact congrArg (Except.map _) hy, ?_⟩
      cases s with
      | member name =>
        obtain ⟨className, layout, members, i, p, rfl, hi, -, hx, -⟩ := enter_member he
        simp only [replace, hi]
        exact .member hi hx hpart
      | index idx =>
        obtain ⟨items, i, rfl, hi, hx, -⟩ := enter_index he
        simp only [replace, hi]
        exact .element hi hx hpart

/-- The new part is what is read afterwards. -/
theorem Overwritten.getAt_eq (h : Overwritten old new path v w) : w.getAt path = .ok new := by
  induction h with
  | whole => rfl
  | @member _ _ _ _ _ _ y _ hi hx _ ih =>
    have hy := List.getElem?_set_self (a := y) (List.getElem?_eq_some_iff.1 hx).1
    obtain ⟨ty, holdsRef, he⟩ := enter_object hi hy
    rw [getAt, he]
    exact ih
  | @element _ _ _ _ _ y _ hi hx _ ih =>
    have hy := List.getElem?_set_self (a := y) (List.getElem?_eq_some_iff.1 hx).1
    rw [getAt, enter_array (by rwa [List.length_set]) hy]
    exact ih

/-- A value that a path goes through can be read, and is no reference. -/
theorem getAt_prefix (h : v.getAt (init ++ s :: rest) = .ok w) :
    ∃ x, v.getAt init = .ok x ∧ ¬x.IsRef := by
  induction init generalizing v with
  | nil =>
    refine ⟨v, rfl, ?_⟩
    rintro ⟨index, rfl⟩
    cases s <;> cases h
  | cons t r ih =>
    rw [List.cons_append, getAt] at h
    rw [getAt]
    split at h
    · cases h
    · exact ih h

end Value

/-! ## Variables and chunks -/

/-- The second frame is the first with another value of a variable. -/
structure Frame.Overwritten (f : Frame) (name : String) (x : Variable) (value : Value)
    (g : Frame) : Prop where
  before : f.get? name = some x
  after : g.get? name = some { x with value }
  others : ∀ k, k ≠ name → g.get? k = f.get? k
  rest : g = { f with vars := g.vars }

theorem Frame.Overwritten.assign {f : Frame} {name : String} {x : Variable}
    (h : f.get? name = some x) (value : Value) :
    f.Overwritten name x value (f.assign name value) where
  before := h
  after := by rw [get?_assign, if_pos rfl, h, Option.map_some]
  others k hk := by rw [get?_assign, if_neg hk]
  rest := rfl

/-- The second heap is the first with other data in a chunk in use. -/
structure Heap.Overwritten (h : Heap) (index : Nat) (c : Chunk) (data : Value) (h' : Heap) :
    Prop where
  before : h.chunks[index]? = some c
  used : c.used = true
  after : h'.chunks[index]? = some { c with data }
  others : ∀ j, j ≠ index → h'.chunks[j]? = h.chunks[j]?
  freeList : h'.freeList = h.freeList

theorem Heap.Overwritten.write {h h' : Heap} {index : Nat} {data : Value}
    (hw : h.write index data = .ok h') : ∃ c, h.Overwritten index c data h' := by
  obtain ⟨c, hc, hu, hh'⟩ := write_eq_ok hw
  refine ⟨c, hc, hu, ?_, fun j hj => ?_, by rw [hh']⟩
  · rw [getElem?_write hw, if_pos rfl, hc, Option.map_some]
  · rw [getElem?_write hw, if_neg hj]

/-! ## Machines -/

namespace Machine

variable {m m' : Machine} {p : Place} {old new : Value}

/-- The second machine is the first with a new value at one position: in a variable of
the innermost frame that is no constant, or in a chunk in use. -/
inductive Overwritten (m : Machine) (old new : Value) : Place → Machine → Prop
  | var {name : String} {path : List Step} {x : Variable} {value : Value} {f : Frame} :
    x.isConst = false → Value.Overwritten old new path x.value value →
    m.frames.current.Overwritten name x value f →
    Overwritten m old new { root := .var name, path }
      { m with frames := m.frames.modifyCurrent fun _ => f }
  | chunk {index : Nat} {path : List Step} {c : Chunk} {data : Value} {heap : Heap} :
    Value.Overwritten old new path c.data data → m.heap.Overwritten index c data heap →
    Overwritten m old new { root := .chunk index, path } { m with heap }

theorem rootValue_of_get? {name : String} {x : Variable}
    (hget : m.frames.current.get? name = some x) (hconst : x.isConst = false) :
    m.rootValue (.var name) = .ok (x.value, x.ty) := by
  have hw : m.writableVariable name = .ok x := by
    rw [writableVariable, hget]
    simp only [hconst, Bool.false_eq_true, if_false]
  exact bind_eq_ok.2 ⟨x, hw, rfl⟩

theorem rootValue_of_used {index : Nat} {c : Chunk} (hc : m.heap.chunks[index]? = some c)
    (hu : c.used = true) : m.rootValue (.chunk index) = .ok (c.data, .var) := by
  have hd : m.heap.deref index = .ok c.data := by
    rw [Heap.deref, hc]
    exact if_pos hu
  exact bind_eq_ok.2 ⟨c.data, mapError_eq_ok.2 hd, rfl⟩

theorem rootValue_chunk {index : Nat} {value : Value} {ty : Ty}
    (h : m.rootValue (.chunk index) = .ok (value, ty)) :
    ∃ c, m.heap.chunks[index]? = some c ∧ c.used = true ∧ value = c.data := by
  obtain ⟨data, hd, h⟩ := bind_eq_ok.1 h
  cases pure_eq_ok.1 h
  rw [mapError_eq_ok, Heap.deref] at hd
  split at hd
  · cases hd
  · rename_i c hc
    split at hd
    · rename_i hu
      cases hd
      exact ⟨c, hc, hu, rfl⟩
    · cases hd

/-- A place that can be read can be written, whatever the new value, and the write
overwrites just what was read. -/
theorem exists_overwritten (h : m.readPlace p = .ok old) (new : Value) :
    ∃ m', m.writePlace p new = .ok m' ∧ m.Overwritten old new p m' := by
  rcases p with ⟨root, path⟩
  obtain ⟨⟨value, ty⟩, hroot, hget⟩ := bind_eq_ok.1 h
  obtain ⟨value', hset, hover⟩ := Value.exists_overwritten hget new
  cases root with
  | var name =>
    obtain ⟨x, hx, hconst, rfl, rfl⟩ := rootValue_var hroot
    refine ⟨m.modifyFrame (·.assign name value'),
      bind_eq_ok.2 ⟨_, hroot, bind_eq_ok.2 ⟨value', hset, rfl⟩⟩, ?_⟩
    have hm : m.modifyFrame (·.assign name value') = { m with
        frames := m.frames.modifyCurrent fun _ => m.frames.current.assign name value' } := by
      rw [modifyFrame, CallStack.modifyCurrent_congr]
      rfl
    rw [hm]
    exact .var hconst hover (.assign hx value')
  | chunk index =>
    obtain ⟨c, hc, hu, rfl⟩ := rootValue_chunk hroot
    obtain ⟨heap, hwrite⟩ : ∃ heap, m.heap.write index value' = .ok heap := by
      rw [Heap.write, hc]
      exact ⟨_, if_pos hu⟩
    refine ⟨{ m with heap }, bind_eq_ok.2 ⟨_, hroot, bind_eq_ok.2 ⟨value', hset,
      bind_eq_ok.2 ⟨heap, mapError_eq_ok.2 hwrite, rfl⟩⟩⟩, ?_⟩
    obtain ⟨c', hheap⟩ := Heap.Overwritten.write hwrite
    cases hc.symm.trans hheap.before
    exact .chunk hover hheap

/-- The new value is what is read afterwards. -/
theorem Overwritten.readPlace_eq (h : m.Overwritten old new p m') : m'.readPlace p = .ok new := by
  cases h with
  | @var name path x value f hconst hover hf =>
    have hget : (m.frames.modifyCurrent fun _ => f).current.get? name = some { x with value } := by
      rw [CallStack.current_modifyCurrent]
      exact hf.after
    exact bind_eq_ok.2 ⟨_, rootValue_of_get? hget hconst, hover.getAt_eq⟩
  | chunk hover hheap =>
    exact bind_eq_ok.2 ⟨_, rootValue_of_used hheap.after hheap.used, hover.getAt_eq⟩

/-- A walk that crossed no reference since its root still has not, or has a new root. -/
theorem Walk.At.walk {path : List Step} {w w' : Walk} (hw : w.At m)
    (h : m.walk w path = .ok w') : w'.At m := by
  rcases walk_cases hw h with
    ⟨-, rfl⟩ | ⟨root, value, rootTy, init, s, whole, -, hroot, hget, he, hplace⟩
  · exact hw
  · rw [At, hplace]
    exact ⟨value, rootTy, hroot, Value.getAt_concat hget he⟩

theorem readPlace_chunk {index : Nat} {data : Value} (h : m.heap.deref index = .ok data) :
    m.readPlace (.chunk index) = .ok data :=
  bind_eq_ok.2 ⟨(data, .var), bind_eq_ok.2 ⟨data, mapError_eq_ok.2 h, rfl⟩, rfl⟩

/-- The slot that a walk finds holds a value. -/
theorem exists_readPlace_of_locate {slot : Slot} (h : m.locate p = .ok slot) :
    ∃ old, m.readPlace slot.place = .ok old := by
  obtain ⟨⟨value, ty⟩, hroot, h⟩ := bind_eq_ok.1 h
  obtain ⟨w, hw, h⟩ := bind_eq_ok.1 h
  have hat : w.At m := Walk.At.walk ⟨value, ty, hroot, rfl⟩ hw
  split at h
  · -- the slot is the chunk at the end of the references that start there
    obtain ⟨last, hl, h⟩ := bind_eq_ok.1 h
    obtain ⟨data, hd, -⟩ := Heap.terminal_eq_ok (mapError_eq_ok.1 hl)
    rw [← pure_eq_ok.1 h]
    exact ⟨data, readPlace_chunk hd⟩
  · obtain ⟨value, rootTy, hroot, hget⟩ := hat
    rw [← pure_eq_ok.1 h]
    exact ⟨w.value, bind_eq_ok.2 ⟨_, hroot, hget⟩⟩

/-- A value on the way to a place that can be read is no reference. -/
theorem readPlace_prefix {init rest : List Step} {s : Step} (h : m.readPlace p = .ok old)
    (hp : p.path = init ++ s :: rest) :
    ∃ x, m.readPlace { p with path := init } = .ok x ∧ ¬x.IsRef := by
  obtain ⟨⟨value, ty⟩, hroot, hget⟩ := bind_eq_ok.1 h
  rw [hp] at hget
  obtain ⟨x, hx, hdata⟩ := Value.getAt_prefix hget
  exact ⟨x, bind_eq_ok.2 ⟨_, hroot, hx⟩, hdata⟩

/-- An assignment that gives a value has changed nothing but the slot that its place leads
to, which holds the value now. One that fails has changed nothing. Once the slot is found,
it can be read and written, and the way to it crosses no reference. -/
theorem assign_overwrites_one_slot (m : Machine) (p : Place) (op : AssignOp) (v : Value) :
    (match Exec.assign p op v m with
      | .ok w m' => ∃ slot old, m.locate p = .ok slot ∧ m.readPlace slot.place = .ok old ∧
          m.Overwritten old w slot.place m' ∧ m'.readPlace slot.place = .ok w
      | .error _ m' => m' = m
      | .outOfFuel => False) ∧
    ∀ slot, m.locate p = .ok slot →
      (∃ old, m.readPlace slot.place = .ok old) ∧
      (∀ w, ∃ m', m.writePlace slot.place w = .ok m') ∧
      ∀ init s rest, slot.place.path = init ++ s :: rest →
        ∃ x, m.readPlace { slot.place with path := init } = .ok x ∧ ¬x.IsRef := by
  constructor
  · rcases Exec.assign_cases p op v m with ⟨f, hrun⟩ | ⟨slot, w, m', hslot, -, hwrite, hrun⟩
    · rw [hrun]
    · rw [hrun]
      obtain ⟨old, hold⟩ := exists_readPlace_of_locate hslot
      obtain ⟨m₁, hwrite', hover⟩ := exists_overwritten hold w
      cases hwrite.symm.trans hwrite'
      exact ⟨slot, old, hslot, hold, hover, hover.readPlace_eq⟩
  · intro slot hslot
    obtain ⟨old, hold⟩ := exists_readPlace_of_locate hslot
    refine ⟨⟨old, hold⟩, fun w => ?_, fun init s rest hpath => readPlace_prefix hold hpath⟩
    obtain ⟨m', hwrite, -⟩ := exists_overwritten hold w
    exact ⟨m', hwrite⟩

end Machine

end HeapScript
