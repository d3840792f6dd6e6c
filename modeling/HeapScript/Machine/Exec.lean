import HeapScript.Machine.Basic

/-!
# Computations on a machine

A computation takes a machine and ends with a value, with an error, or not within
the steps it was given. The machine as it was left is kept in the first two cases.

* `Exec` is a lawful monad.
* `Exec.inFrame` and `Exec.inLoop` undo on every exit what they do on entry, and
  `Exec.located` gives an error its site.
-/

namespace HeapScript

/-- How a computation ends. -/
inductive Result (α : Type) where
  | ok (value : α) (machine : Machine)
  | error (e : RuntimeError) (machine : Machine)
  | outOfFuel

/-- A computation on a machine. -/
def Exec (α : Type) : Type := Machine → Result α

namespace Exec

variable {α β : Type}

@[always_inline, inline]
protected def pure (a : α) : Exec α := fun m => .ok a m

@[always_inline, inline]
protected def bind (x : Exec α) (f : α → Exec β) : Exec β := fun m =>
  match x m with
  | .ok a m => f a m
  | .error e m => .error e m
  | .outOfFuel => .outOfFuel

@[always_inline]
instance : Monad Exec where
  pure := Exec.pure
  bind := Exec.bind

theorem pure_apply (a : α) (m : Machine) : (pure a : Exec α) m = .ok a m := rfl

theorem bind_apply (x : Exec α) (f : α → Exec β) (m : Machine) :
    (x >>= f) m = match x m with
      | .ok a m => f a m
      | .error e m => .error e m
      | .outOfFuel => .outOfFuel := rfl

theorem id_map_exec (x : Exec α) : id <$> x = x := by
  funext m
  show (match x m with | .ok a m => _ | .error e m => _ | .outOfFuel => _) = x m
  cases x m <;> rfl

theorem bind_assoc_exec {γ : Type} (x : Exec α) (f : α → Exec β) (g : β → Exec γ) :
    x >>= f >>= g = x >>= fun a => f a >>= g := by
  funext m
  simp only [bind_apply]
  cases x m <;> rfl

instance : LawfulMonad Exec :=
  .mk' Exec id_map_exec (fun _ _ => rfl) bind_assoc_exec

/-- The computation that does not end within its steps. -/
def exhausted : Exec α := fun _ => .outOfFuel

/-- Ends with a fault. -/
@[inline]
def fail (f : Fault) : Exec α := fun m => .error { fault := f } m

/-- Looks at the machine. -/
@[inline]
def read (g : Machine → α) : Exec α := fun m => .ok (g m) m

/-- Changes the machine. -/
@[inline]
def modify (g : Machine → Machine) : Exec Unit := fun m => .ok () (g m)

/-- Looks at the machine and may find a fault. -/
@[inline]
def check (g : Machine → Except Fault α) : Exec α := fun m =>
  match g m with
  | .ok a => .ok a m
  | .error f => .error { fault := f } m

/-- Runs a computation on each element of a list, in order. -/
def each (f : α → Exec β) : List α → Exec (List β)
  | [] => pure []
  | a :: as => do
    let b ← f a
    let bs ← each f as
    return b :: bs

/-- Runs a computation in a new frame and takes the frame off again, whatever the
outcome. The frame's pending return value comes with the result. -/
def inFrame (f : Frame) (x : Exec α) : Exec (α × Option Value) := fun m =>
  match x { m with frames := m.frames.push f } with
  | .ok a m => .ok (a, m.frames.current.returnValue) { m with frames := m.frames.pop }
  | .error e m => .error e { m with frames := m.frames.pop }
  | .outOfFuel => .outOfFuel

/-- Runs a computation one loop deeper, whatever the outcome. -/
def inLoop (x : Exec α) : Exec α := fun m =>
  let leave (m : Machine) := m.modifyFrame fun f => { f with loopDepth := f.loopDepth - 1 }
  match x (m.modifyFrame fun f => { f with loopDepth := f.loopDepth + 1 }) with
  | .ok a m => .ok a (leave m)
  | .error e m => .error e (leave m)
  | .outOfFuel => .outOfFuel

/-- Gives an error without a site the line and the calls it was raised at. -/
def located (line : Nat) (x : Exec α) : Exec α := fun m =>
  match x m with
  | .error e m =>
    match e.site with
    | some _ => .error e m
    | none => .error { e with site := some ⟨m.sourceName, line, m.frames.trace⟩ } m
  | r => r

end Exec

end HeapScript
