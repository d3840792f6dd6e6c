import HeapScript.Proofs.Eval.Reachable
import HeapScript.Proofs.Machine.Holding
import HeapScript.Proofs.Machine.Variables

/-!
# Traits of stored values

A trait is a property of single values that every value has which a program can make,
and every value inside it. What has to be shown of a trait is what its fields ask for,
one for each way in which evaluation makes a value; none of them mentions the machine.

* `Trait.Takes`: what may come to stand in a slot.
* `Trait.law` is the law that all that is stored has the trait.
* `Trait.inv_of_reachableBy`: so it is on every machine that programs of its kind can
  reach.
-/

namespace HeapScript

/-- What an assignment may put in a slot of a type at the end of a step: data that the
type accepts, or a reference where the slot is for references. A reference also gets
into a slot for data, if a value with the trait has a slot for references at the end of
the same step: the value was computed for that one. -/
inductive Takes (Holds : Value → Prop) (s : Step) (ty : Ty) : Bool → Value → Prop
  | data {v : Value} : ¬v.IsRef → ty.accepts v.type → Takes Holds s ty false v
  | ref (index : Nat) : Takes Holds s ty true (.ref index)
  | stray {whole part : Value} {ty' : Ty} (index : Nat) : Holds whole →
    whole.enter s = .ok (part, ty', true) → Takes Holds s ty false (.ref index)

/-- What a trait claims, and why every value that a program makes has it. -/
structure Trait where
  /-- Which expressions the program may hold. -/
  Source : Expr → Prop
  /-- Which statements the program may hold. -/
  Code : Stmt → Prop
  /-- Which types slots may be declared with; the flag tells whether they hold
  references. -/
  Declares : Bool → Ty → Prop
  /-- Which types values may be retagged to. -/
  Retags : Ty → Prop
  /-- Holds of a value, its parts apart. -/
  Holds : Value → Prop
  /-- Holds of a variable, the value it holds apart. -/
  Var : String → Variable → Prop
  declares_of_decl {flags : DeclFlags} {ty : Ty} {name : String} {init : Option Expr} {line : Nat} :
    Code (.decl flags ty name init line) → Declares flags.isRef ty
  declares_of_param {f : FunctionValue} {p : Param} : Holds (.function f) →
    p ∈ f.definition.params → Declares p.isRef p.ty
  declares_of_member {c : ClassDef} {p : Param} : Holds (.classDef c) → p ∈ c.members →
    Declares p.isRef p.ty
  declares_named (name : String) : Declares false (.named name)
  declares_texts : Declares false (.array .str)
  retags_of_declares {ty : Ty} : Declares false ty → Retags ty
  retags_of_var {name : String} {x : Variable} : Var name x → Retags x.ty
  retags_of_enter {v part : Value} {s : Step} {ty : Ty} {holdsRef : Bool} : Holds v →
    v.enter s = .ok (part, ty, holdsRef) → Retags ty
  retags_of_result {f : FunctionValue} : Holds (.function f) → Retags f.definition.returnType
  var_of_declares {name : String} {x : Variable} {b : Bool} : Declares b x.ty →
    (x.value.IsRef ↔ b = true) → Var name x
  var_of_alloc {flags : DeclFlags} {ty : Ty} {name : String} {init : Option Expr} {line : Nat}
    (index : Nat) : Code (.decl flags ty name init line) → flags.isAlloc = true →
    Var name { ty, value := .ref index, isConst := flags.isConst }
  var_this (index : Nat) : Var "this" { ty := .obj, value := .ref index }
  var_assigned {name : String} {x : Variable} {v : Value} : Var name x → ¬v.IsRef →
    Var name { x with value := v }
  scalar {v : Value} : v.IsScalar → Holds v
  ref (index : Nat) : Holds (.ref index)
  texts (texts : List String) : Holds (.array .str (texts.map .str))
  function {e : Expr} {d : FunctionDef} : Source e → .function d ∈ e.flatten →
    d.body.Within Source Code → Holds (.function { definition := d })
  /-- The body of a function belongs to the program. -/
  body {f : FunctionValue} : Holds (.function f) → f.definition.body.Within Source Code
  rebound {f : FunctionValue} (receiver : Option Nat) (boundName : Option String) :
    Holds (.function f) → Holds (.function { f with receiver, boundName })
  classDef {c : ClassDef} {line : Nat} : Code (.classDef c line) → Holds (.classDef c)
  array {e : Expr} {elements : List Expr} {items : List Value} {v : Value} : Source e →
    .array elements ∈ e.flatten → items.length = elements.length →
    (∀ x ∈ items, x.Every Holds ∧ ¬x.IsRef) → arrayOf items = .ok v → Holds v
  binary {op : BinaryOp} {a b v : Value} : a.Every Holds → b.Every Holds → ¬a.IsRef → ¬b.IsRef →
    Value.binary op a b = .ok v → Holds v
  object {c : ClassDef} {members : List Value} : Holds (.classDef c) →
    List.Forall₂ (fun p v => Declares p.isRef p.ty ∧ (v.IsRef ↔ p.isRef = true))
      c.members members →
    Holds (.object c.name c.members members)
  default {ty : Ty} : Declares false ty → Holds ty.default
  retag {ty : Ty} {v : Value} : Retags ty → ty.accepts v.type → ¬v.IsRef → v.Every Holds →
    (v.retag ty).Every Holds
  /-- A part that is data becomes other data of the same type. -/
  replace {v part new : Value} {s : Step} {ty : Ty} {holdsRef : Bool} : Holds v →
    v.enter s = .ok (part, ty, holdsRef) → new.type = part.type → ¬part.IsRef → ¬new.IsRef →
    Holds (v.replace s new)
  /-- A part is assigned to. -/
  store {v part new : Value} {s : Step} {ty : Ty} {holdsRef : Bool} : Holds v →
    v.enter s = .ok (part, ty, holdsRef) → Takes Holds s ty holdsRef new → Holds (v.replace s new)

namespace Value

theorem not_isRef_default (ty : Ty) : ¬ty.default.IsRef := by
  rintro ⟨index, h⟩
  rw [Ty.default.eq_def] at h
  split at h <;> cases h

theorem parts_default (ty : Ty) : ty.default.parts = [] := by
  rw [Ty.default.eq_def]
  split <;> rfl

end Value

namespace Trait

variable (T : Trait)

/-- A value that has the trait at every depth. -/
abbrev Has (v : Value) : Prop := v.Every T.Holds

/-- A variable that is as it should be and holds a value with the trait. -/
abbrev HasVar (name : String) (x : Variable) : Prop := T.Var name x ∧ T.Has x.value

/-- All that the machine holds has the trait. -/
structure Inv (m : Machine) : Prop where
  natives : m.natives = .builtin
  heap : m.heap.WellFormed
  holding : m.Holding T.HasVar T.Has

variable {T} {m m' : Machine} {v w : Value}

/-! ## Values -/

theorem has_scalar (h : v.IsScalar) : T.Has v :=
  Value.every_of_parts_eq_nil h.parts_eq_nil (T.scalar h)

theorem has_function {f : FunctionValue} (h : T.Holds (.function f)) : T.Has (.function f) :=
  Value.every_of_parts_eq_nil rfl h

theorem has_default {ty : Ty} (h : T.Declares false ty) : T.Has ty.default :=
  Value.every_of_parts_eq_nil (Value.parts_default ty) (T.default h)

theorem has_arrayOf {e : Expr} {elements : List Expr} {items : List Value} (he : T.Source e)
    (hmem : .array elements ∈ e.flatten) (hlen : items.length = elements.length)
    (hi : ∀ x ∈ items, T.Has x ∧ ¬x.IsRef) (h : arrayOf items = .ok v) :
    T.Has v ∧ ¬v.IsRef := by
  have hv := T.array he hmem hlen hi h
  obtain ⟨tag, rfl⟩ := eq_array_of_arrayOf h
  exact ⟨Value.every_iff.2 ⟨hv, fun x hx => (hi x hx).1⟩, nofun⟩

theorem has_binary {op : BinaryOp} {a b : Value} (ha : T.Has a) (hb : T.Has b) (ha' : ¬a.IsRef)
    (hb' : ¬b.IsRef) (h : Value.binary op a b = .ok v) : T.Has v := by
  refine Value.every_iff.2 ⟨T.binary ha hb ha' hb' h, fun x hx => ?_⟩
  rcases Value.binary_eq_ok h with hs | ⟨tag, items, rfl, hitems⟩
  · rw [hs.parts_eq_nil] at hx
    cases hx
  · rcases hitems x hx with hx | hx | rfl | rfl
    · exact ha.part (Value.mem_parts_of_mem_elements hx)
    · exact hb.part (Value.mem_parts_of_mem_elements hx)
    · exact ha
    · exact hb

theorem has_conform {heap : Heap} {ty : Ty} (ht : T.Retags ty) (hv : T.Has v) (hv' : ¬v.IsRef)
    (h : heap.conform ty v = .ok w) : T.Has w ∧ ¬w.IsRef := by
  obtain ⟨ha, rfl⟩ := Heap.conform_eq_ok h
  rw [Heap.typeOf_of_not_isRef hv'] at ha
  exact ⟨T.retag ht ha hv' hv, fun hr => hv' (Value.retag_isRef.1 hr)⟩

namespace Inv

theorem resolve (hm : T.Inv m) (hv : T.Has v) (h : m.heap.resolve v = .ok w) :
    T.Has w ∧ ¬w.IsRef := by
  obtain ⟨-, hne⟩ := Heap.resolve_eq_ok h
  exact ⟨hm.holding.resolve hv h, fun ⟨index, hw⟩ => hne index hw⟩

theorem resolveOperand (hm : T.Inv m) (hv : T.Has v) (h : m.resolve v = .ok w) :
    T.Has w ∧ ¬w.IsRef :=
  ⟨hm.holding.resolveOperand (fun _ _ h => h.2) hv h, Machine.not_isRef_of_resolve h⟩

theorem member {object data : Value} {origin : Option Nat} {name : String}
    (ho : m.resolveWithOrigin object = .ok (data, origin)) (hd : T.Has data)
    (h : m.member object (.ident name) = .ok v) : T.Has v := by
  obtain ⟨part, ty, holdsRef, he, hv⟩ := Machine.member_eq_ok ho h
  have hpart := hd.part (Value.enter_mem_parts he)
  rcases hv with rfl | ⟨f, rfl, rfl⟩
  · exact hpart
  · exact has_function (T.rebound _ _ hpart.self)

theorem returned {f : FunctionValue} {name : String}
    (hf : T.Holds (.function f)) (hv : T.Has v)
    (h : m.checkReturn f.definition name v = .ok w) : T.Has w := by
  rcases Machine.checkReturn_eq_ok h with rfl | h
  · exact hv
  · by_cases hr : v.IsRef
    · obtain ⟨-, rfl⟩ := Heap.conform_eq_ok h
      rwa [Value.retag_of_isRef hr]
    · exact (has_conform (T.retags_of_result hf) hv hr h).1

/-! ## Assignments -/

/-- What an assignment stores has the trait, and is a reference only if that is what was
assigned. -/
theorem assigned {slot : Slot} {op : AssignOp} (hm : T.Inv m) (ht : T.Retags slot.declared)
    (hv : T.Has v) (h : m.assignedValue slot op v = .ok w) :
    T.Has w ∧ (w.IsRef → w = v) ∧ (slot.holdsRef = true → w.IsRef) ∧
      (slot.holdsRef = false → ¬w.IsRef → slot.declared.accepts w.type) := by
  obtain ⟨x, hx, href, hdata⟩ := Machine.assignedValue_eq_ok h
  have hx : T.Has x ∧ (x.IsRef → x = v) := by
    rcases hx with rfl | ⟨binary, old, a, b, hold, ha, hb, hx⟩
    · exact ⟨hv, fun _ => rfl⟩
    · obtain ⟨⟨root, ty⟩, hroot, hget⟩ := bind_eq_ok.1 hold
      have hroot := (hm.holding.rootValue (fun _ _ h => h.2) hroot).getAt hget
      obtain ⟨ha, ha'⟩ := hm.resolveOperand hroot ha
      obtain ⟨hb, hb'⟩ := hm.resolveOperand hv hb
      exact ⟨has_binary ha hb ha' hb' hx, fun hr => absurd hr (Value.binary_eq_ok hx).not_isRef⟩
  cases hs : slot.holdsRef with
  | true =>
    obtain ⟨rfl, hr, -⟩ := href hs
    exact ⟨hx.1, hx.2, fun _ => hr, nofun⟩
  | false =>
    obtain ⟨ha, rfl⟩ := hdata hs
    refine ⟨?_, fun hr => ?_, nofun, fun _ hw => ?_⟩
    · by_cases hr : x.IsRef
      · rw [Value.retag_of_isRef hr]
        exact hx.1
      · rw [Heap.typeOf_of_not_isRef hr] at ha
        exact T.retag ht ha hr hx.1
    · have hr := Value.retag_isRef.1 hr
      rw [Value.retag_of_isRef hr]
      exact hx.2 hr
    · have hx' : ¬x.IsRef := fun hr => hw (Value.retag_isRef.2 hr)
      rw [Heap.typeOf_of_not_isRef hx'] at ha
      exact Value.accepts_type_retag ha

/-- Where a place leads to a slot for references, a value with the trait has such a slot
at the end of the same step. -/
theorem holds_of_leadsToRef {p : Place} {s : Step} (hm : T.Inv m) (h : m.LeadsToRef p)
    (hs : p.path.getLast? = some s) :
    ∃ whole part ty, T.Holds whole ∧ whole.enter s = .ok (part, ty, true) := by
  obtain ⟨root, value, rootTy, init, s', whole, part, ty, hs', hroot, hget, he⟩ := h.enters
  rw [hs] at hs'
  cases hs'
  exact ⟨whole, part, ty, ((hm.holding.rootValue (fun _ _ h => h.2) hroot).getAt hget).self, he⟩

/-- The type that a slot is declared with is one that values may be retagged to. -/
theorem retags_of_finds {p : Place} {slot : Slot} (hm : T.Inv m) (h : m.Finds p slot) :
    T.Retags slot.declared := by
  have hwhole : ∀ {root value rootTy init whole}, m.rootValue root = .ok (value, rootTy) →
      value.getAt init = .ok whole → T.Holds whole := fun hroot hget =>
    ((hm.holding.rootValue (fun _ _ h => h.2) hroot).getAt hget).self
  cases h with
  | direct _ hx _ => exact T.retags_of_var (hm.holding.writableVariable hx).1
  | referent _ hx _ _ => exact T.retags_of_var (hm.holding.writableVariable hx).1
  | part _ hroot hget he _ => exact T.retags_of_enter (hwhole hroot hget) he
  | stray _ hroot hget he _ => exact T.retags_of_enter (hwhole hroot hget) he

theorem assign {p : Place} {slot : Slot} {op : AssignOp} (hm : T.Inv m) (hv : T.Has v)
    (hdata : ¬v.IsRef ∨ ∃ m₀, T.Inv m₀ ∧ m₀.LeadsToRef p)
    (hp : p.path ≠ [] ∨ ∃ name, p = .var name) (hl : m.locate p = .ok slot)
    (hw : m.assignedValue slot op v = .ok w) (h : m.writePlace slot.place w = .ok m') :
    T.Inv m' ∧ T.Has w := by
  have hfinds := Machine.finds_of_locate hp hl
  obtain ⟨hhas, hsame, href, haccepts⟩ := hm.assigned (hm.retags_of_finds hfinds) hv hw
  refine ⟨⟨?_, ?_, ?_⟩, hhas⟩
  · rw [(Machine.Confined.writePlace h).natives, hm.natives]
  · obtain ⟨old, new, rootTy, -, -, ⟨name, -, rfl⟩ | ⟨index, heap, -, hwrite, rfl⟩⟩ :=
      Machine.writePlace_cases h
    · exact hm.heap
    · exact hm.heap.write hwrite
  · refine hm.holding.writePlace (fun old new rootTy hold hset => ?_) h
    cases hfinds with
    | direct hvar hx hx' =>
      -- data comes in the place of the data of a whole variable
      have hv' : ¬v.IsRef := by
        refine hdata.resolve_right fun ⟨m₀, _, hr⟩ => ?_
        obtain ⟨name, hlast⟩ := hr.endsInMember
        rw [hvar] at hlast
        cases hlast
      cases hset
      have hw' : ¬w.IsRef := fun hr => hv' (hsame hr ▸ hr)
      exact ⟨hhas, fun name x _ hV => ⟨T.var_assigned hV.1 hw', hhas⟩⟩
    | referent _ _ _ _ =>
      cases hset
      exact ⟨hhas, nofun⟩
    | stray _ _ _ _ _ =>
      cases hset
      exact ⟨hhas, nofun⟩
    | @part root value whole part' rootTy' ty init s holdsRef hlast hroot hget he _ =>
      rw [hroot] at hold
      cases hold
      have hroot := hm.holding.rootValue (fun _ _ h => h.2) hroot
      have htakes : Takes T.Holds s ty holdsRef w := by
        by_cases hr : w.IsRef
        · have hstray := hdata.resolve_left fun hv' => hv' (hsame hr ▸ hr)
          obtain ⟨m₀, hm₀, hleads⟩ := hstray
          obtain ⟨whole₀, part₀, ty₀, hwhole₀, he₀⟩ := hm₀.holds_of_leadsToRef hleads hlast
          obtain ⟨index, rfl⟩ := hr
          cases holdsRef with
          | true => exact .ref index
          | false => exact .stray index hwhole₀ he₀
        · cases holdsRef with
          | true => exact absurd (href rfl) hr
          | false => exact .data hr (haccepts rfl hr)
      have hnew := Value.Every.setAt_concat (fun hv he => T.replace hv he) hget hset hroot hhas
        fun hwhole => T.store hwhole he htakes
      refine ⟨hnew, fun name x _ hV => ⟨T.var_assigned hV.1 ?_, hnew⟩⟩
      obtain ⟨a, l, hpath⟩ := List.exists_cons_of_ne_nil (List.append_ne_nil_of_right_ne_nil init
        (List.cons_ne_nil s []))
      rw [hpath] at hset
      exact (Value.type_setAt hset).2.1

/-! ## Native functions -/

theorem collectWith (hm : T.Inv m) (roots : List Value) :
    T.Inv { m with toWorld := (m.toWorld.collect roots).2 } :=
  ⟨hm.natives, hm.heap.collect roots, hm.holding.collectWith hm.heap roots⟩

theorem native (hm : T.Inv m) {f : Native} (hf : f ∈ m.natives) {args : List Value} {world : World}
    {r : Except Fault Value} (ha : ∀ v ∈ args, T.Has v)
    (h : f.run m.frames args m.toWorld = (r, world)) :
    T.Inv { m with toWorld := world } ∧ ∀ v, r = .ok v → T.Has v := by
  rw [hm.natives] at hf
  rcases Native.builtin_cases hf with hf | rfl | rfl
  · have hrun := hf _ _ _ _ _ h
    exact ⟨⟨hm.natives, hrun.heap ▸ hm.heap, hm.holding.sameHeap hrun.heap⟩,
      fun v hv => has_scalar (hrun.scalar v hv)⟩
  · cases Native.bind_world h
    refine ⟨hm, ?_⟩
    rintro v rfl
    obtain ⟨g, receiver, hg, -, rfl⟩ := Native.bind_eq_ok_function h
    have harg : T.Has (args.headD .void) := by
      cases args with
      | nil => exact has_scalar trivial
      | cons a as => exact ha a List.mem_cons_self
    exact has_function (T.rebound _ _ (hm.resolve harg hg).1.self)
  · obtain ⟨rfl, n, rfl⟩ := Native.collect_run h
    refine ⟨hm.collectWith _, ?_⟩
    rintro _ ⟨⟩
    exact has_scalar trivial

theorem noteAllocation (hm : T.Inv m) : T.Inv m.noteAllocation := by
  refine ⟨?_, ?_, hm.holding.noteAllocation hm.heap⟩
  · rw [(Machine.Confined.noteAllocation m).natives, hm.natives]
  · rw [Machine.noteAllocation]
    split
    · exact hm.heap.collect _
    · exact hm.heap

end Inv

/-! ## The law -/

variable (T)

/-- The law that all that is stored has the trait. -/
def law : Law where
  Source := T.Source
  Code := T.Code
  Declares := T.Declares
  Inv := T.Inv
  Later _ _ := True
  Err _ _ := True
  Stored _ v := T.Has v
  Data _ v := T.Has v ∧ ¬v.IsRef
  Fits _ b ty v := T.Declares b ty ∧ (v.IsRef ↔ b = true) ∧ T.Has v
  later_refl _ := trivial
  later_trans _ _ := trivial
  err_of_later _ _ _ := trivial
  stored_later _ hv := hv
  data_later _ hv := hv
  fits_later _ hv := hv
  stored_of_data hv := hv.1
  declares_of_decl h := T.declares_of_decl h
  declares_of_param hf hp := T.declares_of_param hf.1.self hp
  declares_of_member hc hp := T.declares_of_member hc.1.self hp
  fault _ := trivial
  missing _ _ := trivial
  located _ _ _ _ _ := trivial
  lookup hm h := hm.holding.lookupValue (fun _ _ h => h.2) h
  deref hm hv h := hm.resolve hv (mapError_eq_ok.1 h)
  num _ _ := ⟨has_scalar trivial, nofun⟩
  str _ _ := ⟨has_scalar trivial, nofun⟩
  bool _ _ := ⟨has_scalar trivial, nofun⟩
  void _ := ⟨has_scalar trivial, nofun⟩
  function _ _ _ he hd hb := ⟨has_function (T.function he hd hb), nofun⟩
  array he hmem hlen hi h := has_arrayOf he hmem hlen hi h
  binary ha hb h :=
    ⟨has_binary ha.1 hb.1 ha.2 hb.2 h, (Value.binary_eq_ok h).not_isRef⟩
  unary _ h := ⟨has_scalar (Value.unary_eq_ok h), (Value.unary_eq_ok h).not_isRef⟩
  member _ ho hd h := Inv.member ho hd.1 h
  element hd h := hd.1.part (Value.enter_mem_parts h)
  object hc hm := by
    refine ⟨Value.every_iff.2 ⟨T.object hc.1.self (hm.imp fun _ _ h => ⟨h.1, h.2.1⟩), ?_⟩, nofun⟩
    exact forall_of_forall₂ (hm.imp fun _ _ h => h.2.2)
  reference _ ht hv h := by
    obtain ⟨rfl, hr, -⟩ := Machine.expectReference_eq_ok h
    exact ⟨ht, iff_of_true hr rfl, hv⟩
  conform _ ht hv h := by
    obtain ⟨hw, hw'⟩ := has_conform (T.retags_of_declares ht) hv.1 hv.2 h
    exact ⟨ht, iff_of_false hw' Bool.false_ne_true, hw⟩
  default _ ty ht :=
    ⟨ht, iff_of_false (Value.not_isRef_default ty) Bool.false_ne_true, has_default ht⟩
  classDef _ c _ hc :=
    ⟨T.declares_named _, iff_of_false nofun Bool.false_ne_true,
      Value.every_of_parts_eq_nil rfl (T.classDef hc)⟩
  returned _ hf hv h := Inv.returned hf.1.self hv h
  touch hm hg := ⟨⟨hm.natives, hm.heap, hm.holding.touch hg⟩, trivial, fun _ _ => trivial⟩
  pending hm hv := ⟨⟨hm.natives, hm.heap, hm.holding.pending hv⟩, trivial⟩
  declare name x hm hx :=
    ⟨⟨hm.natives, hm.heap, hm.holding.declare ⟨T.var_of_declares hx.1 hx.2.1, hx.2.2⟩⟩, trivial⟩
  allocate {m flags ty name init line v} hm hc ha hv _ := by
    have hm' : T.Inv { m with heap := (m.heap.allocate v).2 } :=
      ⟨hm.natives, hm.heap.allocate v, hm.holding.allocate hm.heap hv.2.2⟩
    have hvar : T.HasVar name
        { ty, value := .ref (m.heap.allocate v).1, isConst := flags.isConst } :=
      ⟨T.var_of_alloc _ hc ha, Value.every_of_parts_eq_nil rfl (T.ref _)⟩
    exact ⟨Inv.noteAllocation ⟨hm'.natives, hm'.heap, hm'.holding.declare hvar⟩, trivial⟩
  assign hm hv hd hp hl hw h := by
    obtain ⟨hm', hw⟩ := hm.assign hv (hd.imp_left And.right)
      (hp.imp_right fun ⟨name, h, _⟩ => ⟨name, h⟩) hl hw h
    exact ⟨hm', trivial, hw⟩
  native hm hf _ ha _ h := by
    obtain ⟨hm', hr⟩ := hm.native hf ha h
    exact ⟨hm', trivial, hr, fun _ _ => trivial⟩
  body hf := T.body hf.1.self
  enter {m f} invokedAs name values hm hf hv := by
    refine ⟨hm.natives, hm.heap, hm.holding.enter ?_⟩
    refine hm.holding.current.calleeFrame invokedAs name ?_ (fun invoked => ?_) fun index _ => ?_
    · exact hv.imp fun p v h => ⟨T.var_of_declares h.1 h.2.1, h.2.2⟩
    · exact ⟨T.var_of_declares (T.declares_named _) (iff_of_false nofun Bool.false_ne_true), hf.1⟩
    · exact ⟨T.var_this index, Value.every_of_parts_eq_nil rfl (T.ref index)⟩
  leave {m m' f} _ _ hm' _ :=
    ⟨⟨hm'.natives, hm'.heap, hm'.holding.leave⟩, trivial,
      fun v hv => hm'.holding.current.pending v hv⟩
  err_of_enter _ _ := trivial

variable {T}

theorem inv_create (config : Config) (console : Console) (files : Files) :
    T.Inv (Machine.create config .builtin console files) := by
  refine ⟨rfl, Heap.wellFormed_empty, fun f hf => ?_, fun i v h => ?_⟩
  · cases List.mem_singleton.1 hf
    exact ⟨by rintro p ⟨⟩, by rintro v ⟨⟩⟩
  · obtain ⟨c, hc, -⟩ := Heap.deref_eq_ok_iff.1 h
    cases hc

theorem Inv.named (hm : T.Inv m) (name : String) : T.Inv { m with sourceName := name } :=
  ⟨hm.natives, hm.heap, hm.holding.frames, hm.holding.chunks⟩

theorem Inv.bindArguments (hm : T.Inv m) (args : List String) : T.Inv (m.bindArguments args) := by
  refine ⟨hm.natives, hm.heap, hm.holding.bindArguments args ⟨?_, ?_⟩⟩
  · exact T.var_of_declares T.declares_texts (iff_of_false nofun Bool.false_ne_true)
  · refine Value.every_iff.2 ⟨T.texts args, fun x hx => ?_⟩
    obtain ⟨s, -, rfl⟩ := List.mem_map.1 hx
    exact has_scalar trivial

/-- All that is stored has the trait, after any runs of programs that are made of what
the trait admits. -/
theorem inv_of_reachableBy {P : Program → Prop}
    (hP : ∀ p, P p → ∀ s ∈ p.statements, s.Within T.Source T.Code) (h : m.ReachableBy P) :
    T.Inv m :=
  h.inv T.law inv_create (fun name hm => hm.named name) (fun args hm => hm.bindArguments args)
    (fun hm => hm.collectWith _) hP

theorem Inv.stores (hm : T.Inv m) (hv : m.Stores v) : T.Has v := by
  cases hv with
  | var hf hx => exact ((hm.holding.frames _ hf).vars _ hx).2
  | pending hf hr => exact (hm.holding.frames _ hf).pending _ hr
  | chunk hd => exact hm.holding.chunks _ _ hd

end Trait

end HeapScript
