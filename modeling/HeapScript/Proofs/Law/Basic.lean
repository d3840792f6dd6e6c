import HeapScript.Eval.Run
import HeapScript.Proofs.Fault.Tame
import HeapScript.Proofs.Machine.Confined
import HeapScript.Proofs.Machine.Place
import HeapScript.Proofs.Program.Occurs
import HeapScript.Proofs.Value.Occurs
import Mathlib.Data.List.Forall2

/-!
# Laws of evaluation

A law is something that every run of a program keeps: an invariant of the machine,
how a machine may change, which values are stored and which errors arise. What has
to be shown of a law is what its fields ask for, one for each way in which the
evaluator makes a value, changes the machine or fails; that every run then keeps it
is proved once, in `Proofs/Law/Statement`.

* `Law.After`: a computation that was started on a machine ended in keeping with
  the law.
* The lemmas go through the building blocks of computations; `Law.after_bind` is
  the one for sequences.
-/

namespace HeapScript

/-- What a law claims, and why every step of an evaluation keeps it. -/
structure Law where
  /-- Which expressions the program may hold. -/
  Source : Expr → Prop
  /-- Which statements the program may hold. -/
  Code : Stmt → Prop
  /-- Which types slots may be declared with; the flag tells whether they hold
  references. -/
  Declares : Bool → Ty → Prop
  /-- Holds of the machine between any two steps. -/
  Inv : Machine → Prop
  /-- How a machine may differ from an earlier one. -/
  Later : Machine → Machine → Prop
  /-- Holds of an error that ends a computation started on the machine. -/
  Err : Machine → RuntimeError → Prop
  /-- Holds of what variables, chunks and pending return values hold. -/
  Stored : Machine → Value → Prop
  /-- Holds of values that were followed to their data. -/
  Data : Machine → Value → Prop
  /-- Holds of what a slot of a type accepts; the flag tells whether it holds
  references. -/
  Fits : Machine → Bool → Ty → Value → Prop
  later_refl (m : Machine) : Later m m
  later_trans {m m' m'' : Machine} : Later m m' → Later m' m'' → Later m m''
  /-- An error of a later part is one of the whole. -/
  err_of_later {m m' : Machine} {e : RuntimeError} : m.Confined m' → Later m m' → Err m' e → Err m e
  stored_later {m m' : Machine} {v : Value} : Later m m' → Stored m v → Stored m' v
  data_later {m m' : Machine} {v : Value} : Later m m' → Data m v → Data m' v
  fits_later {m m' : Machine} {b : Bool} {t : Ty} {v : Value} :
    Later m m' → Fits m b t v → Fits m' b t v
  stored_of_data {m : Machine} {v : Value} : Data m v → Stored m v
  declares_of_decl {flags : DeclFlags} {ty : Ty} {name : String} {init : Option Expr} {line : Nat} :
    Code (.decl flags ty name init line) → Declares flags.isRef ty
  declares_of_param {m : Machine} {f : FunctionValue} {p : Param} : Data m (.function f) →
    p ∈ f.definition.params → Declares p.isRef p.ty
  declares_of_member {m : Machine} {c : ClassDef} {p : Param} : Data m (.classDef c) →
    p ∈ c.members → Declares p.isRef p.ty
  /-- Every fault may arise, apart from a missing operand. -/
  fault {m : Machine} {f : Fault} : f ≠ .missingOperand → Err m { fault := f }
  /-- A missing operand may arise only in an expression that has too few. -/
  missing {m : Machine} {e : Expr} : Source e → suffices? 0 e.flatten = false →
    Err m { fault := .missingOperand }
  /-- An error gets its site where it leaves a statement. -/
  located {m m' : Machine} {f : Fault} (line : Nat) : m.Confined m' → Inv m' → Later m m' →
    Err m { fault := f } →
    Err m { fault := f, site := some ⟨m'.sourceName, line, m'.frames.trace⟩ }
  lookup {m : Machine} {name : String} {v : Value} : Inv m → m.lookupValue name = .ok v → Stored m v
  deref {m : Machine} {v w : Value} : Inv m → Stored m v → m.deref v = .ok w → Data m w
  num (m : Machine) (n : Float) : Data m (.num n)
  str (m : Machine) (s : String) : Data m (.str s)
  bool (m : Machine) (b : Bool) : Data m (.bool b)
  void (m : Machine) : Data m .void
  function (m : Machine) {e : Expr} {d : FunctionDef} : Source e → .function d ∈ e.flatten →
    d.body.Within Source Code → Data m (.function { definition := d })
  array {m : Machine} {e : Expr} {elements : List Expr} {items : List Value} {v : Value} :
    Source e → .array elements ∈ e.flatten → items.length = elements.length →
    (∀ x ∈ items, Data m x) → arrayOf items = .ok v → Data m v
  binary {m : Machine} {op : BinaryOp} {a b v : Value} : Data m a → Data m b →
    Value.binary op a b = .ok v → Data m v
  unary {m : Machine} {op : UnaryOp} {a v : Value} : Data m a → Value.unary op a = .ok v → Data m v
  member {m : Machine} {object data v : Value} {origin : Option Nat} {name : String} : Inv m →
    m.resolveWithOrigin object = .ok (data, origin) → Data m data →
    m.member object (.ident name) = .ok v → Stored m v
  element {m : Machine} {data index v : Value} {ty : Ty} {holdsRef : Bool} : Data m data →
    data.enter (.index index) = .ok (v, ty, holdsRef) → Stored m v
  object {m : Machine} {c : ClassDef} {members : List Value} : Data m (.classDef c) →
    List.Forall₂ (fun p v => Fits m p.isRef p.ty v) c.members members →
    Data m (.object c.name c.members members)
  reference {m : Machine} {ty : Ty} {use : RefUse} {v w : Value} : Inv m → Declares true ty →
    Stored m v → m.expectReference ty use v = .ok w → Fits m true ty w
  conform {m : Machine} {ty : Ty} {v w : Value} : Inv m → Declares false ty → Data m v →
    m.heap.conform ty v = .ok w → Fits m false ty w
  default (m : Machine) {ty : Ty} : Declares false ty → Fits m false ty ty.default
  classDef (m : Machine) {c : ClassDef} {line : Nat} : Code (.classDef c line) →
    Fits m false .classTy (.classDef c)
  returned {m : Machine} {f : FunctionValue} {name : String} {v w : Value} : Inv m →
    Data m (.function f) → Stored m v → m.checkReturn f.definition name v = .ok w → Stored m w
  /-- A change to the innermost frame that keeps its name and its values. -/
  touch {m : Machine} {g : Frame → Frame} : Inv m →
    (∀ f : Frame, (g f).vars = f.vars ∧ (g f).returnValue = f.returnValue ∧ (g f).name = f.name) →
    Inv (m.modifyFrame g) ∧ Later m (m.modifyFrame g) ∧ ∀ e, Err (m.modifyFrame g) e → Err m e
  pending {m : Machine} {v : Value} : Inv m → Stored m v →
    Inv (m.modifyFrame fun f => { f with returnValue := some v }) ∧
      Later m (m.modifyFrame fun f => { f with returnValue := some v })
  declare {m : Machine} {b : Bool} (name : String) {x : Variable} : Inv m → Fits m b x.ty x.value →
    Inv (m.declare name x) ∧ Later m (m.declare name x)
  /-- The value goes to a new chunk, the variable holds its reference, and a
  collection may follow. A reference was checked on this very machine. -/
  allocate {m : Machine} {flags : DeclFlags} {ty : Ty} {name : String} {init : Option Expr}
    {line : Nat} {v : Value} : Inv m → Code (.decl flags ty name init line) →
    flags.isAlloc = true → Fits m flags.isRef ty v →
    (flags.isRef = true → v.IsRef ∧ ty.accepts (m.heap.typeOf v)) →
    let chunk := m.heap.allocate v
    let m' := (({ m with heap := chunk.2 } : Machine).declare name
      { ty, value := .ref chunk.1, isConst := flags.isConst }).noteAllocation
    Inv m' ∧ Later m m'
  /-- A value that is no data is assigned only where the place led to a slot for
  references before the value was computed. A place without steps is a variable that
  an expression assigns to. -/
  assign {m m' : Machine} {p : Place} {slot : Slot} {op : AssignOp} {v w : Value} : Inv m →
    Stored m v → Data m v ∨ (∃ m₀, Inv m₀ ∧ m₀.LeadsToRef p) →
    p.path ≠ [] ∨ (∃ name, p = .var name ∧
      ((∃ e, Source e ∧ e.Assigns name) ∨ Stored m (.ident name))) →
    m.locate p = .ok slot → m.assignedValue slot op v = .ok w →
    m.writePlace slot.place w = .ok m' →
    Inv m' ∧ Later m m' ∧ Stored m' w
  /-- A native function runs only where it was called by its name. -/
  native {m : Machine} {f : Native} {args : List Value} {w : World} {r : Except Fault Value} :
    Inv m → f ∈ m.natives →
    ((∃ e, Source e ∧ e.Calls f.name) ∨ Stored m (.ident f.name)) →
    (∀ v ∈ args, Stored m v) →
    (f.takesRefs = false → ∀ v ∈ args, Data m v) →
    f.run m.frames args m.toWorld = (r, w) →
    Inv { m with toWorld := w } ∧ Later m { m with toWorld := w } ∧
      (∀ v, r = .ok v → Stored { m with toWorld := w } v) ∧
      ∀ e, r = .error e → Err m { fault := e }
  /-- The body of a function that was reached belongs to the program. -/
  body {m : Machine} {f : FunctionValue} : Data m (.function f) →
    f.definition.body.Within Source Code
  enter {m : Machine} {f : FunctionValue} (invokedAs : Option String) (name : String)
    {values : List Value} : Inv m → Data m (.function f) →
    List.Forall₂ (fun p v => Fits m p.isRef p.ty v) f.definition.params values →
    Inv (m.enter (calleeFrame f invokedAs name values m.frames.current))
  leave {m m' : Machine} {f : Frame} : Inv m → (m.enter f).Confined m' → Inv m' →
    Later (m.enter f) m' →
    Inv m'.leave ∧ Later m m'.leave ∧
      ∀ v, m'.frames.current.returnValue = some v → Stored m'.leave v
  err_of_enter {m : Machine} {f : Frame} {e : RuntimeError} :
    m.frames.depth < m.config.maxCallDepth → Err (m.enter f) e → Err m e

namespace Law

variable (L : Law)

/-- A machine that came out of another in keeping with the law. -/
structure Next (m m' : Machine) : Prop where
  confined : m.Confined m'
  inv : L.Inv m'
  later : L.Later m m'

/-- Holds of values on the operand stack: placeholders and stored values. -/
def Operand (m : Machine) (v : Value) : Prop :=
  (∃ name, v = .ident name) ∨ L.Stored m v

/-- Holds of the names that may be called: those that an expression of the program may
call, and stored ones. -/
def Calls (m : Machine) (name : String) : Prop :=
  (∃ e, L.Source e ∧ e.Calls name) ∨ L.Stored m (.ident name)

/-- A computation that was started on a machine ended in keeping with the law, with
a value that satisfies `Q` if it succeeded. -/
def After {α : Type} (m : Machine) (Q : α → Machine → Prop) : Result α → Prop
  | .ok a m' => L.Next m m' ∧ Q a m'
  | .error e m' => L.Next m m' ∧ L.Err m e
  | .outOfFuel => True

variable {L}

theorem Next.refl {m : Machine} (hm : L.Inv m) : L.Next m m :=
  ⟨.refl m, hm, L.later_refl m⟩

theorem Next.trans {m m' m'' : Machine} (h : L.Next m m') (h' : L.Next m' m'') : L.Next m m'' :=
  ⟨h.confined.trans h'.confined, h'.inv, L.later_trans h.later h'.later⟩

theorem Operand.next {m m' : Machine} {v : Value} (h : L.Next m m') (hv : L.Operand m v) :
    L.Operand m' v :=
  hv.imp_right (L.stored_later h.later)

theorem Calls.next {m m' : Machine} {name : String} (h : L.Next m m') (hn : L.Calls m name) :
    L.Calls m' name :=
  hn.imp_right (L.stored_later h.later)

theorem Operand.of_data {m : Machine} {v : Value} (hv : L.Data m v) : L.Operand m v :=
  .inr (L.stored_of_data hv)

section Rules

variable {α β : Type} {m : Machine} {Q : α → Machine → Prop} {S : β → Machine → Prop}

theorem After.mono {Q' : α → Machine → Prop} {r : Result α} (h : L.After m Q r)
    (hQ : ∀ a m', L.Next m m' → Q a m' → Q' a m') : L.After m Q' r := by
  cases r with
  | ok a m' => exact ⟨h.1, hQ a m' h.1 h.2⟩
  | error e m' => exact h
  | outOfFuel => trivial

/-- Whatever the outcome, the machine came out in keeping with the law. -/
theorem After.next {m' : Machine} {r : Result α} (h : L.After m Q r) (hr : r.machine? = some m') :
    L.Next m m' := by
  cases r with
  | ok a m'' =>
    cases hr
    exact h.1
  | error e m'' =>
    cases hr
    exact h.1
  | outOfFuel => cases hr

/-- What holds from a later machine on holds from the start. -/
theorem After.of_next {m' : Machine} {r : Result α} (hm : L.Next m m') (h : L.After m' Q r) :
    L.After m Q r := by
  cases r with
  | ok a m'' => exact ⟨hm.trans h.1, h.2⟩
  | error e m'' => exact ⟨hm.trans h.1, L.err_of_later hm.confined hm.later h.2⟩
  | outOfFuel => trivial

theorem after_pure {a : α} (hm : L.Inv m) (ha : Q a m) : L.After m Q ((pure a : Exec α) m) :=
  ⟨.refl hm, ha⟩

theorem after_bind {x : Exec α} {f : α → Exec β} (hx : L.After m Q (x m))
    (hf : ∀ a m', L.Next m m' → Q a m' → L.After m' S (f a m')) : L.After m S ((x >>= f) m) := by
  rw [Exec.bind_apply]
  cases hr : x m with
  | ok a m' =>
    rw [hr] at hx
    exact (hf a m' hx.1 hx.2).of_next hx.1
  | error e m' =>
    rw [hr] at hx
    exact hx
  | outOfFuel => trivial

theorem after_fail {f : Fault} (hm : L.Inv m) (hf : f ≠ .missingOperand) :
    L.After m Q ((Exec.fail f : Exec α) m) :=
  ⟨.refl hm, L.fault hf⟩

theorem after_read {g : Machine → α} (hm : L.Inv m) (hQ : Q (g m) m) :
    L.After m Q (Exec.read g m) :=
  ⟨.refl hm, hQ⟩

theorem after_modify {g : Machine → Machine} (hg : L.Next m (g m)) :
    L.After m (fun _ _ => True) (Exec.modify g m) :=
  ⟨hg, trivial⟩

theorem after_check {g : Machine → Except Fault α} (hm : L.Inv m) (ht : Tame (g m))
    (hQ : ∀ a, g m = .ok a → Q a m) : L.After m Q (Exec.check g m) := by
  rw [Exec.check]
  cases hg : g m with
  | ok a => exact ⟨.refl hm, hQ a hg⟩
  | error f => exact ⟨.refl hm, L.fault (ht.fault_ne hg)⟩

theorem after_each {f : α → Exec β} {P : Machine → β → Prop}
    (hP : ∀ {m m' b}, L.Next m m' → P m b → P m' b) {as : List α} (hm : L.Inv m)
    (hf : ∀ a ∈ as, ∀ m, L.Inv m → L.After m (fun b m' => P m' b) (f a m)) :
    L.After m (fun bs m' => bs.length = as.length ∧ ∀ b ∈ bs, P m' b) (Exec.each f as m) := by
  induction as generalizing m with
  | nil => exact after_pure hm (by simp)
  | cons a as ih =>
    refine after_bind (hf a List.mem_cons_self m hm) fun b m' hn hb => ?_
    refine after_bind (ih hn.inv fun a ha => hf a (List.mem_cons_of_mem _ ha))
      fun bs m'' hn' hbs => ?_
    refine after_pure hn'.inv ⟨congrArg (· + 1) hbs.1, fun c hc => ?_⟩
    rcases List.mem_cons.1 hc with rfl | hc
    · exact hP hn' hb
    · exact hbs.2 c hc

theorem after_located {x : Exec α} {line : Nat} (hx : L.After m Q (x m)) :
    L.After m Q (Exec.located line x m) := by
  rw [Exec.located]
  cases hr : x m with
  | ok a m' => rwa [hr] at hx
  | outOfFuel => trivial
  | error e m' =>
    rw [hr] at hx
    rcases e with ⟨f, _ | site⟩
    · exact ⟨hx.1, L.located line hx.1.confined hx.1.inv hx.1.later hx.2⟩
    · exact hx

/-- A loop level is entered before a computation and left behind it. -/
theorem after_inLoop {x : Exec α}
    (hx : ∀ m, L.Inv m → L.After m Q (x m)) (hm : L.Inv m) :
    L.After m (fun _ _ => True) (Exec.inLoop x m) := by
  obtain ⟨hinv, hin, herr⟩ := L.touch (g := fun f => { f with loopDepth := f.loopDepth + 1 }) hm
    fun f => ⟨rfl, rfl, rfl⟩
  have hx := hx _ hinv
  have hleave : ∀ m', L.Next (m.modifyFrame fun f => { f with loopDepth := f.loopDepth + 1 }) m' →
      L.Next m (m'.modifyFrame fun f => { f with loopDepth := f.loopDepth - 1 }) := by
    intro m' h
    obtain ⟨hinv, hout, -⟩ := L.touch (g := fun f => { f with loopDepth := f.loopDepth - 1 }) h.inv
      fun f => ⟨rfl, rfl, rfl⟩
    have hc := h.confined
    exact ⟨⟨hc.frames.of_leave, hc.config, hc.natives, hc.sourceName⟩, hinv,
      L.later_trans hin (L.later_trans h.later hout)⟩
  rw [Exec.inLoop]
  cases hr : x (m.modifyFrame fun f => { f with loopDepth := f.loopDepth + 1 }) with
  | ok a m' =>
    rw [hr] at hx
    exact ⟨hleave m' hx.1, trivial⟩
  | error e m' =>
    rw [hr] at hx
    exact ⟨hleave m' hx.1, herr e hx.2⟩
  | outOfFuel => trivial

end Rules

end Law

end HeapScript
