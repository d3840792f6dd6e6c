import HeapScript.Proofs.Eval.Isolation
import HeapScript.Proofs.Machine.Alike
import HeapScript.Proofs.Value.Sound

/-!
# Disciplines of computations

A discipline is a property of computations, such as never touching a variable or
doing the same on machines that look alike. What has to be shown of it is that it
holds of each step an evaluation is made of, and that it goes through sequences,
loops and calls; that it then holds of every statement and every expression is
proved once, in `Proofs/Discipline/Evaluator`.

* `Stmt.Declares`: the names that a statement may bind in its frame. A discipline
  may be one of statements that bind certain names only.
* `Discipline` lists the steps. The lemmas after it are steps that come down to
  these.
-/

namespace HeapScript

/-- The statement may bind the name in the frame it runs in. The body of a function
runs in a frame of its own. -/
inductive Stmt.Declares : Stmt → String → Prop
  | decl (flags : DeclFlags) (ty : Ty) (name : String) (init : Option Expr) (line : Nat) :
    Declares (.decl flags ty name init line) name
  | classDef (c : ClassDef) (line : Nat) : Declares (.classDef c line) c.name
  | part {s t : Stmt} {name : String} : t ∈ s.parts → t.Declares name → Declares s name

namespace Exec

/-- Whatever the outcome of the computation, it changes the innermost frame only. -/
def Confining {α : Type} (x : Exec α) : Prop :=
  ∀ m m', (x m).machine? = some m' → m.Confined m'

/-- Runs a native function. -/
def native (f : Native) (args : List Value) : Exec Value := fun m =>
  match f.run m.frames args m.toWorld with
  | (.ok v, world) => .ok v { m with toWorld := world }
  | (.error fault, world) => .error { fault } { m with toWorld := world }

/-- Puts a value on the heap and binds a name to its reference. -/
def allocate (name : String) (ty : Ty) (isConst : Bool) (v : Value) : Exec Unit :=
  modify fun m =>
    let chunk := m.heap.allocate v
    (({ m with heap := chunk.2 } : Machine).declare name
      { ty, value := .ref chunk.1, isConst }).noteAllocation

end Exec

/-- A property of computations, and why it holds of each step of an evaluation. -/
structure Discipline where
  Holds {α : Type} : Exec α → Prop
  /-- The names that may be bound. -/
  Binds : String → Prop
  /-- The machines that computations are run on. -/
  Admits : Machine → Prop
  protected pure {α : Type} (a : α) : Holds (pure a)
  protected bind {α β : Type} {x : Exec α} {f : α → Exec β} : Holds x → (∀ a, Holds (f a)) →
    Holds (x >>= f)
  exhausted {α : Type} : Holds (Exec.exhausted : Exec α)
  /-- What follows a question depends on the answers that it can have. -/
  check {α β : Type} {g : Machine → Except Fault α} {k : α → Exec β} : Machine.Sees g →
    (∀ m a, Admits m → g m = .ok a → Holds (k a)) → Holds (Exec.check g >>= k)
  line (line : Nat) : Holds (Exec.modify fun m => m.modifyFrame fun f => { f with line })
  pending (v : Value) :
    Holds (Exec.modify fun m => m.modifyFrame fun f => { f with returnValue := some v })
  declare {name : String} (x : Variable) : Binds name → Holds (Exec.modify (·.declare name x))
  allocate {name : String} (ty : Ty) (isConst : Bool) (v : Value) : Binds name →
    Holds (Exec.allocate name ty isConst v)
  /-- Only data is assigned to a whole variable. -/
  assign {p : Place} {v : Value} (op : AssignOp) : ¬v.IsRef ∨ p.path ≠ [] →
    Holds (Exec.assign p op v)
  native {m : Machine} {f : Native} (args : List Value) : Admits m → f ∈ m.natives →
    Holds (Exec.native f args)
  located {α : Type} {x : Exec α} (line : Nat) : Holds x → Holds (Exec.located line x)
  inLoop {α : Type} {x : Exec α} : Holds x → Holds (Exec.inLoop x)
  /-- A frame of its own has no names yet that must not be bound. -/
  inFrame {α : Type} {x : Exec α} (f : Frame) : x.Confining → ((∀ name, Binds name) → Holds x) →
    Holds (Exec.inFrame f x)

theorem Evaluator.mem_natives_of_native? {m : Machine} {callee : Value} {f : Native}
    (h : native? m callee = some f) : f ∈ m.natives := by
  rw [native?.eq_def] at h
  split at h
  · split at h
    · cases h
    · exact List.mem_of_find?_eq_some h
  · cases h

/-- A loop is a round of it and, if that says so, the rest. -/
theorem Evaluator.loop_succ (E : Evaluator Expr) (cond : Option Expr) (step : Option Stmt)
    (body : Stmt) (n : Nat) :
    E.loop cond step body (n + 1) = (do
      match ← E.round cond step body with
      | none => E.loop cond step body n
      | some flow => return flow : Exec Flow) := by
  funext m
  rw [Evaluator.loop, Exec.bind_apply]
  rcases E.round cond step body m with ⟨_ | flow, m'⟩ | ⟨e, m'⟩ | _ <;> rfl

theorem Place.path_push_ne_nil (p : Place) (s : Step) : (p.push s).path ≠ [] :=
  List.append_ne_nil_of_right_ne_nil _ (List.cons_ne_nil s [])

namespace Discipline

variable {D : Discipline} {α β : Type}

theorem question {g : Machine → Except Fault α} (hg : Machine.Sees g) : D.Holds (Exec.check g) := by
  rw [← bind_pure (Exec.check g)]
  exact D.check hg fun _ a _ _ => D.pure a

theorem read {g : Machine → α} {k : α → Exec β} (hg : Machine.Sees g)
    (hk : ∀ m, D.Admits m → D.Holds (k (g m))) : D.Holds (Exec.read g >>= k) := by
  refine D.check (g := fun m => .ok (g m)) (fun m m' h => congrArg _ (hg m m' h)) ?_
  rintro m _ hm ⟨⟩
  exact hk m hm

theorem fail (f : Fault) : D.Holds (Exec.fail f : Exec α) :=
  question (g := fun _ => .error f) fun _ _ _ => rfl

theorem each {f : α → Exec β} (hf : ∀ a, D.Holds (f a)) (as : List α) :
    D.Holds (Exec.each f as) := by
  induction as with
  | nil => exact D.pure []
  | cons a as ih => exact D.bind (hf a) fun b => D.bind ih fun bs => D.pure _

end Discipline

end HeapScript
