import HeapScript.Proofs.Law.Trait

/-!
# Slots that hold references

Which variables, parameters and members of the programs may hold references, and with
which types they are declared.

* `RefSlots` is what is known of the slots that programs declare.
* `RefSlots.trait`: a `ref` member holds a reference; any other member does so only if it
  has the name of a `ref` member of some class, since an assignment decides by the name
  whether its right side is evaluated to a reference, before it evaluates it. A variable
  that holds a reference was declared for one, or is a receiver.
-/

namespace HeapScript

/-- The slots that programs declare. -/
structure RefSlots where
  /-- The types of the variables and parameters that hold references, and of the members
  that may. -/
  Types : Ty → Prop
  /-- The types of the variables whose chunk holds a reference. -/
  Chains : Ty → Prop
  /-- The member slots of classes. -/
  Members : Param → Prop
  /-- The names of classes. -/
  Classes : String → Prop
  /-- A member with the name of a `ref` member may hold a reference. -/
  shared {p q : Param} : Members p → Members q → q.name = p.name → q.isRef = true → Types p.ty

/-- Some `ref` member has the name of the slot. -/
def Param.SharesRef (Members : Param → Prop) (p : Param) : Prop :=
  ∃ q, Members q ∧ q.name = p.name ∧ q.isRef = true

namespace RefSlots

variable (S : RefSlots)

/-- What an expression may hold: parameters of function literals, and assignments to a
receiver. -/
structure Source (e : Expr) : Prop where
  params {d : FunctionDef} {p : Param} : .function d ∈ e.flatten → p ∈ d.params →
    p.isRef = true → S.Types p.ty
  this : e.Assigns "this" → S.Types .obj

/-- What a statement may declare. -/
def Code : Stmt → Prop
  | .decl flags ty _ _ _ => (flags.isAlloc = true ∨ flags.isRef = true → S.Types ty) ∧
      (flags.isAlloc = true → flags.isRef = true → S.Chains ty)
  | .classDef c _ => S.Classes c.name ∧ ∀ p ∈ c.members, S.Members p
  | _ => True

/-- The program declares only such slots. -/
structure Admits (p : Program) : Prop where
  exprs : ∀ e, p.Has e → S.Source e
  stmts : ∀ s, p.Contains s → S.Code s

/-- What a member slot holds. -/
structure Fills (p : Param) (w : Value) : Prop where
  member : S.Members p
  ref : p.isRef = true → w.IsRef
  shared : w.IsRef → p.SharesRef S.Members

/-- What a value holds, its parts apart. -/
def Holds : Value → Prop
  | .ident _ | .unknown => False
  | .array _ items => ∀ x ∈ items, ¬x.IsRef
  | .object className layout members => S.Classes className ∧ List.Forall₂ S.Fills layout members
  | .classDef c => S.Classes c.name ∧ ∀ p ∈ c.members, S.Members p
  | .function f => (∀ p ∈ f.definition.params, p.isRef = true → S.Types p.ty) ∧
      f.definition.body.Within S.Source S.Code
  | .num _ | .str _ | .bool _ | .ref _ | .void => True

/-- What a variable that holds a reference is declared for. -/
def Var (name : String) (x : Variable) : Prop :=
  x.value.IsRef → S.Types x.ty ∨ name = "this" ∧ x.ty = .obj

variable {S} {v part new : Value} {s : Step} {ty : Ty} {holdsRef : Bool}

theorem types_of_decl {flags : DeclFlags} {name : String} {init : Option Expr} {line : Nat}
    (h : S.Code (.decl flags ty name init line)) (hr : flags.isRef = true) : S.Types ty :=
  h.1 (.inr hr)

theorem Fills.types {p : Param} {w : Value} (h : S.Fills p w) (hw : w.IsRef) : S.Types p.ty := by
  obtain ⟨q, hq, hname, hr⟩ := h.shared hw
  exact S.shared h.member hq hname hr

theorem holds_scalar (h : v.IsScalar) : S.Holds v := by
  cases v <;> trivial

/-- Entering a member leads to a slot of the layout that has its name, with what fills
it. -/
theorem Holds.fills {name : String} (hv : S.Holds v)
    (h : v.enter (.member name) = .ok (part, ty, holdsRef)) :
    ∃ p, S.Fills p part ∧ p.name = name ∧ p.ty = ty ∧ p.isRef = holdsRef := by
  obtain ⟨className, layout, members, i, p, rfl, hi, hp, hm, rfl, rfl⟩ := Value.enter_member h
  obtain ⟨hi', hname, -⟩ := List.findIdx?_eq_some_iff_getElem.1 hi
  obtain ⟨hlen, rfl⟩ := List.getElem?_eq_some_iff.1 hp
  obtain ⟨hlen', rfl⟩ := List.getElem?_eq_some_iff.1 hm
  exact ⟨_, hv.2.get hlen hlen', beq_iff_eq.1 hname, rfl, rfl⟩

/-- A member may be replaced by what fills its slot too. -/
theorem Holds.replace_member {name : String} (hv : S.Holds v)
    (h : v.enter (.member name) = .ok (part, ty, holdsRef))
    (hnew : ∀ p, S.Fills p part → p.name = name → p.isRef = holdsRef → S.Fills p new) :
    S.Holds (v.replace (.member name) new) := by
  obtain ⟨className, layout, members, i, p, rfl, hi, hp, hm, -, rfl⟩ := Value.enter_member h
  obtain ⟨hi', hname, -⟩ := List.findIdx?_eq_some_iff_getElem.1 hi
  obtain ⟨hlen, rfl⟩ := List.getElem?_eq_some_iff.1 hp
  obtain ⟨hlen', rfl⟩ := List.getElem?_eq_some_iff.1 hm
  simp only [Value.replace, hi]
  refine ⟨hv.1, List.forall₂_iff_get.2 ⟨?_, fun j hj hj' => ?_⟩⟩
  · rw [List.length_set]
    exact hv.2.length_eq
  · rw [List.get_eq_getElem, List.get_eq_getElem, List.getElem_set]
    have hj'' : j < members.length := by rwa [List.length_set] at hj'
    split
    · rename_i e
      subst e
      exact hnew _ (hv.2.get hlen hlen') (beq_iff_eq.1 hname) rfl
    · exact hv.2.get hj hj''

theorem Holds.replace_index {idx : Value} (hv : S.Holds v)
    (h : v.enter (.index idx) = .ok (part, ty, holdsRef)) (hnew : ¬new.IsRef) :
    S.Holds (v.replace (.index idx) new) := by
  obtain ⟨items, i, rfl, hi, -⟩ := Value.enter_index h
  simp only [Value.replace, hi]
  intro x hx
  rcases List.mem_or_eq_of_mem_set hx with hx | rfl
  · exact hv x hx
  · exact hnew

variable (S)

/-- The trait of values that programs with these slots make. -/
def trait : Trait where
  Source := S.Source
  Code := S.Code
  Declares b ty := b = true → S.Types ty
  Retags _ := True
  Holds := S.Holds
  Var := S.Var
  declares_of_decl h hr := types_of_decl h hr
  declares_of_param hf hp hr := hf.1 _ hp hr
  declares_of_member hc hp hr := S.shared (hc.2 _ hp) (hc.2 _ hp) rfl hr
  declares_named _ h := nomatch h
  declares_texts h := nomatch h
  retags_of_declares _ := trivial
  retags_of_var _ := trivial
  retags_of_enter _ _ := trivial
  retags_of_result _ := trivial
  var_of_declares h hiff hr := .inl (h (hiff.1 hr))
  var_of_alloc _ h ha _ := .inl (h.1 (.inl ha))
  var_this _ _ := .inr ⟨rfl, rfl⟩
  var_assigned _ hv hr := absurd hr hv
  scalar := holds_scalar
  ref _ := trivial
  texts texts x hx := by
    obtain ⟨s, -, rfl⟩ := List.mem_map.1 hx
    nofun
  function he hd hb := ⟨fun _ hp hr => he.params hd hp hr, hb⟩
  body hf := hf.2
  rebound _ _ hf := hf
  classDef hc := hc
  array _ _ _ hi h := by
    obtain ⟨tag, rfl⟩ := eq_array_of_arrayOf h
    exact fun x hx => (hi x hx).2
  binary {op a b v} ha hb ha' hb' h := by
    have hitems : ∀ {y : Value}, S.Holds y → ∀ x ∈ y.elements, ¬x.IsRef := by
      intro y hy x hx
      cases y with
      | array tag items => exact hy x hx
      | _ => cases hx
    rcases Value.binary_eq_ok h with hs | ⟨tag, items, rfl, hmade⟩
    · exact holds_scalar hs
    · intro x hx
      rcases hmade x hx with hx | hx | rfl | rfl
      · exact hitems ha.self x hx
      · exact hitems hb.self x hx
      · exact ha'
      · exact hb'
  object {c members} hc hm := by
    refine ⟨hc.1, List.forall₂_iff_get.2 ⟨hm.length_eq, fun i hi hi' => ?_⟩⟩
    have hp := hc.2 _ (List.getElem_mem hi)
    obtain ⟨-, hiff⟩ := hm.get hi hi'
    exact ⟨hp, hiff.2, fun hr => ⟨_, hp, rfl, hiff.1 hr⟩⟩
  default {ty} _ := by
    rw [Ty.default.eq_def]
    split
    · nofun
    all_goals trivial
  retag {ty v} _ _ _ hv := by
    refine Value.Every.retag (fun element tag items h x hx => ?_) hv ty
    obtain ⟨y, hy, rfl⟩ := List.mem_map.1 hx
    exact fun hr => h y hy (Value.retag_isRef.1 hr)
  replace {v part new s ty holdsRef} hv he _ hpart hnew := by
    cases s with
    | member name =>
      refine hv.replace_member he fun p hp _ _ => ⟨hp.member, fun hr => ?_, fun hr => ?_⟩
      · exact absurd (hp.ref hr) hpart
      · exact absurd hr hnew
    | index idx => exact hv.replace_index he hnew
  store {v part new s ty holdsRef} hv he htakes := by
    cases s with
    | member name =>
      refine hv.replace_member he fun p hp hname hflag => ?_
      cases htakes with
      | data hnew _ => exact ⟨hp.member, fun hr => by simp [hr] at hflag, fun hr => absurd hr hnew⟩
      | ref index => exact ⟨hp.member, fun _ => ⟨index, rfl⟩, fun _ => ⟨p, hp.member, rfl, hflag⟩⟩
      | stray index hwhole he₀ =>
        -- a reference for a `ref` member of the same name
        obtain ⟨q, hq, hname', -, hr⟩ := hwhole.fills he₀
        refine ⟨hp.member, fun _ => ⟨index, rfl⟩, fun _ => ⟨q, hq.member, ?_, hr⟩⟩
        rw [hname, hname']
    | index idx =>
      refine hv.replace_index he ?_
      obtain ⟨items, i, -, -, -, rfl⟩ := Value.enter_index he
      cases htakes with
      | data hnew _ => exact hnew
      | stray index hwhole he₀ =>
        obtain ⟨items, i, -, -, -, hfalse⟩ := Value.enter_index he₀
        cases hfalse

end RefSlots

end HeapScript
