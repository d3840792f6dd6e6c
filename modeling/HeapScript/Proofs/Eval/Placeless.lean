import HeapScript.Proofs.Discipline.Evaluator
import HeapScript.Proofs.Eval.Fuel
import HeapScript.Proofs.Native.Builtin

/-!
# Evaluations do not see the lines they are at

A frame records the line of its current statement for the sake of traces. Nothing that a
program does depends on it.

* `Machine.unplaced` and `Result.unplaced` forget these lines, in frames and in traces. The
  line of the statement that an error arose in stays.
* `Machine.Shifted`: two machines differ in such lines only.
* `Exec.MirroredBy`: where one computation ends, another one ends likewise, on machines that
  are shifted. It goes through sequences, loops and calls.
* `mirroring` is the discipline of being mirrored by oneself, so that every statement is
  (`mirrored_stmt`), with as many levels or with more.
-/

namespace HeapScript

/-! ## Forgetting lines -/

/-- The frame, at no line. -/
def Frame.unplaced (f : Frame) : Frame :=
  { f with line := 0 }

/-- The stack with all its frames at no line. -/
def CallStack.unplaced (s : CallStack) : CallStack :=
  ⟨s.main.unplaced, s.calls.map Frame.unplaced⟩

/-- The machine with all its frames at no line. -/
def Machine.unplaced (m : Machine) : Machine :=
  { m with frames := m.frames.unplaced }

/-- The trace with the names of its calls only. -/
def Trace.unplaced (trace : Trace) : Trace :=
  trace.map fun entry => { entry with line := 0 }

/-- The error with its fault, and with the source and the line of its site; of its trace it
has the names only. -/
def RuntimeError.unplaced (e : RuntimeError) : RuntimeError :=
  { e with site := e.site.map fun site => { site with trace := site.trace.unplaced } }

/-- The outcome without the lines of frames and traces. -/
def Result.unplaced {α : Type} : Result α → Result α
  | .ok a m => .ok a m.unplaced
  | .error e m => .error e.unplaced m.unplaced
  | .outOfFuel => .outOfFuel

theorem Frame.get?_unplaced (f : Frame) (name : String) : f.unplaced.get? name = f.get? name := rfl

theorem Frame.eq_of_unplaced {f f' : Frame} (h : f'.unplaced = f.unplaced) :
    f' = { f with line := f'.line } :=
  congrArg (fun g : Frame => { g with line := f'.line }) h

namespace CallStack

variable {s s' : CallStack}

theorem depth_unplaced (s : CallStack) : s.unplaced.depth = s.depth :=
  List.length_map _

theorem unplaced_push (s : CallStack) (f : Frame) :
    (s.push f).unplaced = s.unplaced.push f.unplaced := rfl

theorem unplaced_pop (s : CallStack) : s.pop.unplaced = s.unplaced.pop := by
  rw [pop, pop, unplaced, unplaced, List.map_tail]

theorem current_unplaced (s : CallStack) : s.unplaced.current = s.current.unplaced := by
  rcases s with ⟨main, _ | ⟨f, r⟩⟩ <;> rfl

theorem roots_unplaced (s : CallStack) : s.unplaced.roots = s.roots := by
  rcases s with ⟨main, calls⟩
  simp only [roots, frames, unplaced, List.flatMap_append, List.flatMap_map]
  rfl

theorem trace_unplaced (s : CallStack) : s.unplaced.trace = s.trace.unplaced := by
  rcases s with ⟨main, calls⟩
  simp only [trace, frames, unplaced, Trace.unplaced, List.map_append, List.map_map]
  rfl

theorem unplaced_modifyCurrent {g g' : Frame → Frame}
    (hg : ∀ f f' : Frame, f'.unplaced = f.unplaced → (g' f').unplaced = (g f).unplaced)
    (hs : s'.unplaced = s.unplaced) :
    (s'.modifyCurrent g').unplaced = (s.modifyCurrent g).unplaced := by
  rcases s with ⟨main, calls⟩
  rcases s' with ⟨main', calls'⟩
  simp only [unplaced, mk.injEq] at hs
  obtain ⟨hmain, hcalls⟩ := hs
  cases calls with
  | nil =>
    obtain rfl := List.map_eq_nil_iff.1 hcalls
    simp only [modifyCurrent, unplaced, hg _ _ hmain]
  | cons f r =>
    cases calls' with
    | nil => cases hcalls
    | cons f' r' =>
      obtain ⟨hf, hr⟩ := List.cons.inj hcalls
      simp only [modifyCurrent, unplaced, List.map_cons, hmain, hg _ _ hf]
      exact congrArg (fun r => CallStack.mk _ (_ :: r)) hr

theorem modifyCurrent_id (s : CallStack) : s.modifyCurrent id = s := by
  rcases s with ⟨main, _ | ⟨f, r⟩⟩ <;> rfl

end CallStack

/-! ## Machines -/

/-- The function does the same whatever lines the frames are at. -/
def Native.Placeless (f : Native) : Prop :=
  ∀ (s s' : CallStack) (args : List Value) (w : World), s'.unplaced = s.unplaced →
    f.run s' args w = f.run s args w

/-- No built-in function looks at a line; `collect` looks at what the frames hold. -/
theorem Native.placeless_of_mem_builtin {f : Native} (hf : f ∈ Natives.builtin) : f.Placeless := by
  intro s s' args w hs
  rcases blind_or_collect hf with hf | rfl
  · exact hf.stack s s' args w
  · have hroots : s'.roots = s.roots := by
      rw [← CallStack.roots_unplaced, hs, CallStack.roots_unplaced]
    simp only [collect, hroots]

/-- The machines differ in the lines that their frames are at, and in nothing else. Their
native functions do not look at these. -/
structure Machine.Shifted (m m' : Machine) : Prop where
  frames : m'.frames.unplaced = m.frames.unplaced
  world : m'.toWorld = m.toWorld
  config : m'.config = m.config
  natives : m'.natives = m.natives
  sourceName : m'.sourceName = m.sourceName
  placeless : ∀ f ∈ m.natives, f.Placeless

namespace Machine.Shifted

variable {m m' : Machine}

theorem refl (hm : ∀ f ∈ m.natives, f.Placeless) : m.Shifted m := ⟨rfl, rfl, rfl, rfl, rfl, hm⟩

variable (h : m.Shifted m')

include h

theorem unplaced : m'.unplaced = m.unplaced := by
  rcases m with ⟨world, frames, config, natives, sourceName⟩
  rcases m' with ⟨world', frames', config', natives', sourceName'⟩
  obtain ⟨hframes, rfl, rfl, rfl, rfl, -⟩ := h
  simp only [Machine.unplaced, hframes]

theorem current : m'.frames.current.unplaced = m.frames.current.unplaced := by
  rw [← CallStack.current_unplaced, h.frames, CallStack.current_unplaced]

theorem main : m'.frames.main.unplaced = m.frames.main.unplaced :=
  congrArg CallStack.main h.frames

theorem roots : m'.frames.roots = m.frames.roots := by
  rw [← CallStack.roots_unplaced, h.frames, CallStack.roots_unplaced]

theorem trace : m'.frames.trace.unplaced = m.frames.trace.unplaced := by
  rw [← CallStack.trace_unplaced, h.frames, CallStack.trace_unplaced]

/-- Nothing but a trace tells the machines apart. -/
theorem alike : m.Alike m' where
  world := h.world
  config := h.config
  natives := h.natives
  depth := by rw [← CallStack.depth_unplaced, h.frames, CallStack.depth_unplaced]
  current := Frame.eq_of_unplaced h.current
  lookup name := by
    rw [CallStack.lookup, CallStack.lookup, ← Frame.get?_unplaced, h.current,
      Frame.get?_unplaced, ← Frame.get?_unplaced m'.frames.main, h.main, Frame.get?_unplaced]

theorem withFrames {s s' : CallStack} (hs : s'.unplaced = s.unplaced) :
    ({ m with frames := s } : Machine).Shifted { m' with frames := s' } :=
  ⟨hs, h.world, h.config, h.natives, h.sourceName, h.placeless⟩

theorem modifyFrame {g g' : Frame → Frame}
    (hg : ∀ f f' : Frame, f'.unplaced = f.unplaced → (g' f').unplaced = (g f).unplaced) :
    (m.modifyFrame g).Shifted (m'.modifyFrame g') :=
  h.withFrames (CallStack.unplaced_modifyCurrent hg h.frames)

/-- The same change of the frame, one that does not depend on its line. -/
theorem update {g : Frame → Frame}
    (hg : ∀ (f : Frame) (line : Nat), (g { f with line }).unplaced = (g f).unplaced) :
    (m.modifyFrame g).Shifted (m'.modifyFrame g) :=
  h.modifyFrame fun f f' hf => by rw [Frame.eq_of_unplaced hf, hg]

/-- A line may be noted in one of the machines only. -/
theorem line_left (line : Nat) : (m.modifyFrame fun f => { f with line }).Shifted m' := by
  have hframe : (m.modifyFrame fun f => { f with line }).Shifted (m'.modifyFrame id) :=
    h.modifyFrame fun _ _ hf => hf
  rwa [Machine.modifyFrame, Machine.modifyFrame, CallStack.modifyCurrent_id] at hframe

theorem line_right (line : Nat) : m.Shifted (m'.modifyFrame fun f => { f with line }) := by
  have hframe : (m.modifyFrame id).Shifted (m'.modifyFrame fun f => { f with line }) :=
    h.modifyFrame fun _ _ hf => hf
  rwa [Machine.modifyFrame, Machine.modifyFrame, CallStack.modifyCurrent_id] at hframe

theorem withWorld (g : World → World) :
    ({ m with toWorld := g m.toWorld } : Machine).Shifted { m' with toWorld := g m'.toWorld } :=
  ⟨h.frames, congrArg g h.world, h.config, h.natives, h.sourceName, h.placeless⟩

theorem enter (f : Frame) : (m.enter f).Shifted (m'.enter f) :=
  h.withFrames (by rw [CallStack.unplaced_push, CallStack.unplaced_push, h.frames])

theorem leave : m.leave.Shifted m'.leave :=
  h.withFrames (by rw [CallStack.unplaced_pop, CallStack.unplaced_pop, h.frames])

theorem collectGarbage : m.collectGarbage.2.Shifted m'.collectGarbage.2 := by
  have hcollected := h.withWorld fun w => (w.collect m.frames.roots).2
  rw [Machine.collectGarbage, Machine.collectGarbage, h.roots]
  exact hcollected

theorem noteAllocation : m.noteAllocation.Shifted m'.noteAllocation := by
  have hcounted := h.withWorld fun w => { w with collector := w.collector.noteAllocation }
  have hdue : m'.collector = m.collector := congrArg World.collector h.world
  rw [Machine.noteAllocation, Machine.noteAllocation]
  dsimp only
  rw [hdue]
  split
  · exact (hdue ▸ hcounted).collectGarbage
  · exact hdue ▸ hcounted

end Machine.Shifted

/-! ## Outcomes -/

/-- The second outcome is the first one but for lines of frames and traces. Of a computation
that runs out of steps nothing is known. -/
inductive Result.MirroredBy {α : Type} : Result α → Result α → Prop
  | ok (a : α) {m m' : Machine} : m.Shifted m' → MirroredBy (.ok a m) (.ok a m')
  | error {e e' : RuntimeError} {m m' : Machine} : e'.unplaced = e.unplaced → m.Shifted m' →
    MirroredBy (.error e m) (.error e' m')
  | outOfFuel (r : Result α) : MirroredBy .outOfFuel r

theorem Result.MirroredBy.unplaced {α : Type} {r r' : Result α} (h : r.MirroredBy r')
    (hr : r ≠ .outOfFuel) : r' ≠ .outOfFuel ∧ r'.unplaced = r.unplaced := by
  cases h with
  | ok a h => exact ⟨nofun, by rw [Result.unplaced, Result.unplaced, h.unplaced]⟩
  | error he h => exact ⟨nofun, by rw [Result.unplaced, Result.unplaced, he, h.unplaced]⟩
  | outOfFuel r => exact absurd rfl hr

namespace Exec

variable {α β : Type} {x x' y y' : Exec α} {m m' : Machine}

/-- Notes the line of the current statement. -/
def atLine (line : Nat) : Exec Unit :=
  modify fun m => m.modifyFrame fun f => { f with line }

/-- Run on machines that are shifted, the second computation ends as the first one does, if
that ends. -/
def MirroredBy (x y : Exec α) : Prop :=
  ∀ m m', m.Shifted m' → (x m).MirroredBy (y m')

theorem mirrored_pure (a : α) : (pure a : Exec α).MirroredBy (pure a) :=
  fun _ _ h => .ok a h

theorem mirrored_exhausted (y : Exec α) : exhausted.MirroredBy y :=
  fun _ _ _ => .outOfFuel _

theorem mirrored_bind {f g : α → Exec β} (hx : x.MirroredBy y) (hf : ∀ a, (f a).MirroredBy (g a)) :
    (x >>= f).MirroredBy (y >>= g) := by
  intro m m' h
  have hx := hx m m' h
  rw [bind_apply, bind_apply]
  generalize x m = r at hx
  generalize y m' = r' at hx
  cases hx with
  | ok a h => exact hf a _ _ h
  | error he h => exact .error he h
  | outOfFuel => exact .outOfFuel _

/-- The second computation may be one that ends more often. -/
theorem MirroredBy.more (hx : x.MirroredBy y) (hy : y.Approximates y') : x.MirroredBy y' := by
  intro m m' h
  have hx := hx m m' h
  have hy := hy m'
  generalize x m = r at hx
  generalize y m' = r' at hx hy
  cases hx with
  | ok a h => exact hy nofun ▸ .ok a h
  | error he h => exact hy nofun ▸ .error he h
  | outOfFuel => exact .outOfFuel _

/-- A question that has the same answer on both machines. -/
theorem mirrored_check {g : Machine → Except Fault α} {k : α → Exec β} (hg : g m' = g m)
    (h : m.Shifted m') (hk : ∀ a, g m = .ok a → (k a m).MirroredBy (k a m')) :
    ((check g >>= k) m).MirroredBy ((check g >>= k) m') := by
  rw [bind_apply, bind_apply, check, check, hg]
  cases ha : g m with
  | ok a => exact hk a ha
  | error f => exact .error rfl h

/-- A line may be noted on one side only. -/
theorem MirroredBy.line_left (hx : x.MirroredBy y) (line : Nat) :
    (atLine line >>= fun _ => x).MirroredBy y :=
  fun _ m' h => hx _ m' (h.line_left line)

theorem MirroredBy.line_right (hx : x.MirroredBy y) (line : Nat) :
    x.MirroredBy (atLine line >>= fun _ => y) :=
  fun m _ h => hx m _ (h.line_right line)

theorem mirrored_located (line : Nat) (hx : x.MirroredBy y) :
    (located line x).MirroredBy (located line y) := by
  intro m m' h
  have hx := hx m m' h
  rw [located, located]
  generalize x m = r at hx
  generalize y m' = r' at hx
  cases hx with
  | ok a h => exact .ok a h
  | outOfFuel => exact .outOfFuel _
  | @error e e' m m' he h =>
    obtain ⟨hfault, hsite⟩ := RuntimeError.mk.inj he
    rcases e with ⟨f, _ | site⟩ <;> rcases e' with ⟨f', _ | site'⟩
    · refine .error ?_ h
      simp only [RuntimeError.unplaced, Option.map_some, h.trace, h.sourceName] at hfault ⊢
      rw [hfault]
    · cases hsite
    · cases hsite
    · exact .error he h

theorem mirrored_inLoop (hx : x.MirroredBy y) : (inLoop x).MirroredBy (inLoop y) := by
  intro m m' h
  have hx := hx _ _ (h.update (g := fun f => { f with loopDepth := f.loopDepth + 1 }) fun _ _ => rfl)
  rw [inLoop, inLoop]
  generalize x (m.modifyFrame _) = r at hx
  generalize y (m'.modifyFrame _) = r' at hx
  cases hx with
  | ok a h => exact .ok a (h.update fun _ _ => rfl)
  | error he h => exact .error he (h.update fun _ _ => rfl)
  | outOfFuel => exact .outOfFuel _

theorem mirrored_inFrame (f : Frame) (hx : x.MirroredBy y) :
    (inFrame f x).MirroredBy (inFrame f y) := by
  intro m m' h
  have hx := hx _ _ (h.enter f)
  rw [inFrame, inFrame, ← Machine.enter, ← Machine.enter]
  generalize x (m.enter f) = r at hx
  generalize y (m'.enter f) = r' at hx
  cases hx with
  | ok a h =>
    dsimp only
    rw [Frame.eq_of_unplaced h.current]
    exact .ok _ h.leave
  | error he h => exact .error he h.leave
  | outOfFuel => exact .outOfFuel _

end Exec

/-! ## Evaluations -/

/-- An assignment to the same place stores the same value. -/
theorem Machine.Shifted.assign {m m' : Machine} (h : m.Shifted m') (p : Place) (op : AssignOp)
    (v : Value) : (Exec.assign p op v m).MirroredBy (Exec.assign p op v m') := by
  rcases h.alike.assign p op v with ⟨f, he, he'⟩ | ⟨w, name, new, ho, ho'⟩ | ⟨w, heap, ho, ho'⟩
  · rw [he, he']
    exact .error rfl h
  · rw [ho, ho']
    exact .ok w (h.update fun _ _ => rfl)
  · rw [ho, ho']
    exact .ok w (h.withWorld fun w => { w with heap })

/-- A native function that does not look at lines does the same. -/
theorem Machine.Shifted.native {m m' : Machine} (h : m.Shifted m') {f : Native} (hf : f.Placeless)
    (args : List Value) : (Exec.native f args m).MirroredBy (Exec.native f args m') := by
  have hworld := h.withWorld fun w => (f.run m.frames args w).2
  rw [Exec.native, Exec.native, hf m.frames m'.frames args _ h.frames, h.world]
  rw [h.world] at hworld
  rcases hr : f.run m.frames args m.toWorld with ⟨fault | v, w⟩ <;> rw [hr] at hworld
  · exact .error rfl hworld
  · exact .ok v hworld

/-- The discipline of doing the same on machines that are at other lines. -/
def mirroring : Discipline where
  Holds x := x.MirroredBy x
  Binds _ := True
  Admits m := ∀ f ∈ m.natives, f.Placeless
  pure := Exec.mirrored_pure
  bind := Exec.mirrored_bind
  exhausted := Exec.mirrored_exhausted _
  check hg hk m m' h :=
    Exec.mirrored_check (hg m m' h.alike) h fun a ha => hk m a h.placeless ha m m' h
  line _ _ _ h := .ok () (h.update fun _ _ => rfl)
  pending _ _ _ h := .ok () (h.update fun _ _ => rfl)
  declare _ _ _ _ h := .ok () (h.update fun _ _ => rfl)
  allocate {name} ty isConst v _ m m' h := by
    rw [Exec.allocate, Exec.modify, Exec.modify, h.alike.heap]
    have hheap := h.withWorld fun w => { w with heap := (m.heap.allocate v).2 }
    exact .ok () (hheap.update fun _ _ => rfl).noteAllocation
  assign {p v} op _ _ _ h := h.assign p op v
  native {_ f} args hm hf _ _ h := h.native (hm f hf) args
  located line := Exec.mirrored_located line
  inLoop := Exec.mirrored_inLoop
  inFrame f _ hx := Exec.mirrored_inFrame f (hx fun _ => trivial)

section Levels

variable {n k : Nat} (hnk : n ≤ k)

include hnk

/-- Every statement is mirrored by itself, with as many levels or with more. -/
theorem mirrored_stmt (s : Stmt) :
    ((evaluator n).stmt s).MirroredBy ((evaluator k).stmt s) := by
  have hgoverned := (Discipline.governs_evaluator mirroring n).stmt (s := s) fun _ _ => trivial
  exact Exec.MirroredBy.more hgoverned ((evaluator_approximates hnk).stmt s)

theorem mirrored_goesOn (cond : Option Expr) :
    ((evaluator n).goesOn cond).MirroredBy ((evaluator k).goesOn cond) := by
  have hgoverned := (Discipline.governs_evaluator mirroring n).goesOn cond
  exact Exec.MirroredBy.more hgoverned ((evaluator_approximates hnk).goesOn cond)

theorem mirrored_afterBody (step : Option Stmt) (flow : Flow) :
    ((evaluator n).afterBody step flow).MirroredBy ((evaluator k).afterBody step flow) := by
  have hgoverned : mirroring.Holds ((evaluator n).afterBody step flow) :=
    Discipline.Governs.afterBody (fun s _ => mirrored_stmt (Nat.le_refl n) s) flow
  exact Exec.MirroredBy.more hgoverned ((evaluator_approximates hnk).afterBody step flow)

end Levels

end HeapScript
