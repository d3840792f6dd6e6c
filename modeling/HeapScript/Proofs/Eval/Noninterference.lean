import HeapScript.Proofs.Discipline.Evaluator
import HeapScript.Proofs.Native.Builtin

/-!
# Calls do not see the frames around them

The body of a function depends on its own frame, on what lies outside the call stack,
on the number of active calls, and on the constants of the top level. The variables
of its callers, and those of the top level that are no constants, make no difference.

* `Machine.CallAgrees`: two machines inside a call that agree on all this.
* `Result.Agrees`: two outcomes that an observer inside the call cannot tell apart.
* `obliviousness` is the discipline of giving such outcomes on such machines.
* `stmt_noninterference` is what follows for every statement. A collection looks at
  every frame, so the collector is off and no native function may look at the stack.
-/

namespace HeapScript

/-! ## Machines -/

namespace CallStack

variable {s : CallStack}

theorem calls_modifyCurrent_ne_nil (hs : s.calls ≠ []) (g : Frame → Frame) :
    (s.modifyCurrent g).calls ≠ [] := by
  rcases s with ⟨main, _ | ⟨f, r⟩⟩
  · exact absurd rfl hs
  · exact List.cons_ne_nil _ _

theorem main_modifyCurrent (hs : s.calls ≠ []) (g : Frame → Frame) :
    (s.modifyCurrent g).main = s.main := by
  rcases s with ⟨main, _ | ⟨f, r⟩⟩
  · exact absurd rfl hs
  · rfl

end CallStack

/-- Machines inside a call that agree on its frame, on how many calls are active, on the
constants of the top level and on all that lies outside the stack. -/
structure Machine.CallAgrees (m m' : Machine) : Prop where
  active : m.frames.calls ≠ []
  depth : m'.frames.depth = m.frames.depth
  current : m'.frames.current = m.frames.current
  constants (name : String) : (m'.frames.main.get? name).filter Variable.isConst =
    (m.frames.main.get? name).filter Variable.isConst
  world : m'.toWorld = m.toWorld
  config : m'.config = m.config
  natives : m'.natives = m.natives
  sourceName : m'.sourceName = m.sourceName

namespace Machine.CallAgrees

variable {m m' m₁ m₁' : Machine}

theorem active' (h : m.CallAgrees m') : m'.frames.calls ≠ [] := by
  have hd := h.depth
  rw [CallStack.depth, CallStack.depth] at hd
  rw [← List.length_pos_iff, hd, List.length_pos_iff]
  exact h.active

theorem alike (h : m.CallAgrees m') : m.Alike m' where
  world := h.world
  config := h.config
  natives := h.natives
  depth := h.depth
  current := by rw [h.current]
  lookup name := by rw [CallStack.lookup, CallStack.lookup, h.current, h.constants]

theorem modifyFrame (h : m.CallAgrees m') (g : Frame → Frame) :
    (m.modifyFrame g).CallAgrees (m'.modifyFrame g) where
  active := CallStack.calls_modifyCurrent_ne_nil h.active g
  depth := by simp [Machine.modifyFrame, h.depth]
  current := by simp [Machine.modifyFrame, h.current]
  constants name := by
    simp only [Machine.modifyFrame, CallStack.main_modifyCurrent h.active,
      CallStack.main_modifyCurrent h.active']
    exact h.constants name
  world := h.world
  config := h.config
  natives := h.natives
  sourceName := h.sourceName

theorem withWorld (h : m.CallAgrees m') (g : World → World) :
    ({ m with toWorld := g m.toWorld } : Machine).CallAgrees { m' with toWorld := g m'.toWorld } :=
  ⟨h.active, h.depth, h.current, h.constants, congrArg g h.world, h.config, h.natives,
    h.sourceName⟩

theorem enter (h : m.CallAgrees m') (f : Frame) : (m.enter f).CallAgrees (m'.enter f) :=
  ⟨List.cons_ne_nil _ _, congrArg (· + 1) h.depth, rfl, h.constants, h.world, h.config, h.natives,
    h.sourceName⟩

/-- A call that changed its own frame only leaves the stacks that it found. -/
theorem leave (h : m.CallAgrees m') {f : Frame} (hm : (m.enter f).Confined m₁)
    (hm' : (m'.enter f).Confined m₁') (h₁ : m₁.CallAgrees m₁') :
    m₁.leave.CallAgrees m₁'.leave := by
  have hframes : m₁.leave.frames = m.frames := hm.frames.pop_eq
  have hframes' : m₁'.leave.frames = m'.frames := hm'.frames.pop_eq
  constructor
  case active => rw [hframes]; exact h.active
  case depth => rw [hframes, hframes', h.depth]
  case current => rw [hframes, hframes', h.current]
  case constants => intro name; rw [hframes, hframes', h.constants]
  case world => exact h₁.world
  case config => exact h₁.config
  case natives => exact h₁.natives
  case sourceName => exact h₁.sourceName

end Machine.CallAgrees

/-- Machines inside a call that agree and on which nothing looks at the whole stack. -/
structure Machine.Twin (m m' : Machine) : Prop extends m.CallAgrees m' where
  quiet : m.collector.enabled = false
  blind : ∀ f ∈ m.natives, f.Blind

namespace Machine.Twin

variable {m m' : Machine} (h : m.Twin m')

include h

theorem modifyFrame (g : Frame → Frame) : (m.modifyFrame g).Twin (m'.modifyFrame g) :=
  ⟨h.toCallAgrees.modifyFrame g, h.quiet, h.blind⟩

theorem withWorld {g : World → World} (hg : (g m.toWorld).collector.enabled = false) :
    ({ m with toWorld := g m.toWorld } : Machine).Twin { m' with toWorld := g m'.toWorld } :=
  ⟨h.toCallAgrees.withWorld g, hg, h.blind⟩

/-- With the collector off, an allocation is counted and that is all. -/
theorem noteAllocation : m.noteAllocation.Twin m'.noteAllocation := by
  have hoff (m : Machine) (hm : m.collector.enabled = false) :
      m.noteAllocation = { m with collector := m.collector.noteAllocation } := by
    simp [Machine.noteAllocation, Collector.isDue, Collector.noteAllocation, hm]
  have hquiet : m'.collector.enabled = false := by
    rw [show m'.collector = m.collector from congrArg World.collector h.world]
    exact h.quiet
  rw [hoff m h.quiet, hoff m' hquiet]
  exact h.withWorld (g := fun w => { w with collector := w.collector.noteAllocation }) h.quiet

end Machine.Twin

/-! ## Outcomes -/

/-- The two errors are the same but for the calls around the one they arose in. -/
structure RuntimeError.Agrees (e e' : RuntimeError) : Prop where
  fault : e'.fault = e.fault
  line : e'.site.map Site.line = e.site.map Site.line

/-- The two computations end in the same way, with machines that are related. -/
inductive Result.Agrees {α : Type} (R : Machine → Machine → Prop) : Result α → Result α → Prop
  | ok (a : α) {m m' : Machine} : R m m' → Agrees R (.ok a m) (.ok a m')
  | error {e e' : RuntimeError} {m m' : Machine} : e.Agrees e' → R m m' →
    Agrees R (.error e m) (.error e' m')
  | outOfFuel : Agrees R .outOfFuel .outOfFuel

theorem Result.Agrees.mono {α : Type} {R S : Machine → Machine → Prop} {r r' : Result α}
    (h : r.Agrees R r') (hRS : ∀ m m', R m m' → S m m') : r.Agrees S r' := by
  cases h with
  | ok a h => exact .ok a (hRS _ _ h)
  | error he h => exact .error he (hRS _ _ h)
  | outOfFuel => exact .outOfFuel

namespace Exec

variable {α β : Type} {R : Machine → Machine → Prop} {m m' : Machine}

theorem agrees_bind {x : Exec α} {f : α → Exec β} (hx : (x m).Agrees R (x m'))
    (hf : ∀ a m₁ m₁', R m₁ m₁' → (f a m₁).Agrees R (f a m₁')) :
    ((x >>= f) m).Agrees R ((x >>= f) m') := by
  rw [bind_apply, bind_apply]
  generalize x m = r at hx
  generalize x m' = r' at hx
  cases hx with
  | ok a h => exact hf a _ _ h
  | error he h => exact .error he h
  | outOfFuel => exact .outOfFuel

theorem agrees_located {x : Exec α} (line : Nat) (hx : (x m).Agrees R (x m')) :
    (located line x m).Agrees R (located line x m') := by
  rw [located, located]
  generalize x m = r at hx
  generalize x m' = r' at hx
  cases hx with
  | ok a h => exact .ok a h
  | outOfFuel => exact .outOfFuel
  | @error e e' m m' he h =>
    obtain ⟨hfault, hline⟩ := he
    rcases e with ⟨f, _ | site⟩ <;> rcases e' with ⟨f', _ | site'⟩
    · exact .error ⟨hfault, rfl⟩ h
    · cases hline
    · cases hline
    · exact .error ⟨hfault, hline⟩ h

/-- A question that has the same answer on both machines. -/
theorem agrees_check {g : Machine → Except Fault α} {k : α → Exec β} (hg : g m' = g m)
    (h : R m m') (hk : ∀ a, g m = .ok a → (k a m).Agrees R (k a m')) :
    ((check g >>= k) m).Agrees R ((check g >>= k) m') := by
  rw [bind_apply, bind_apply, check, check, hg]
  cases ha : g m with
  | ok a => exact hk a ha
  | error f => exact .error ⟨rfl, rfl⟩ h

theorem agrees_inLoop {x : Exec α} (hR : ∀ m m' g, R m m' → R (m.modifyFrame g) (m'.modifyFrame g))
    (hx : ∀ m m', R m m' → (x m).Agrees R (x m')) (h : R m m') :
    (inLoop x m).Agrees R (inLoop x m') := by
  have hx := hx _ _ (hR _ _ (fun f => { f with loopDepth := f.loopDepth + 1 }) h)
  rw [inLoop, inLoop]
  generalize x (m.modifyFrame _) = r at hx
  generalize x (m'.modifyFrame _) = r' at hx
  cases hx with
  | ok a h => exact .ok a (hR _ _ _ h)
  | error he h => exact .error he (hR _ _ _ h)
  | outOfFuel => exact .outOfFuel

theorem agrees_inFrame {x : Exec α} {f : Frame} {S : Machine → Machine → Prop}
    (hx : (x (m.enter f)).Agrees S (x (m'.enter f)))
    (hcurrent : ∀ m₁ m₁', S m₁ m₁' → m₁'.frames.current = m₁.frames.current)
    (hleave : ∀ m₁ m₁', (x (m.enter f)).machine? = some m₁ →
      (x (m'.enter f)).machine? = some m₁' → S m₁ m₁' → R m₁.leave m₁'.leave) :
    (inFrame f x m).Agrees R (inFrame f x m') := by
  rw [inFrame, inFrame, ← Machine.enter, ← Machine.enter]
  generalize x (m.enter f) = r at hx hleave
  generalize x (m'.enter f) = r' at hx hleave
  cases hx with
  | ok a h =>
    dsimp only
    rw [hcurrent _ _ h]
    exact .ok _ (hleave _ _ rfl rfl h)
  | error he h => exact .error he (hleave _ _ rfl rfl h)
  | outOfFuel => exact .outOfFuel

end Exec

/-- An assignment to the same place stores the same value. -/
theorem Machine.Twin.assign {m m' : Machine} (h : m.Twin m') (p : Place) (op : AssignOp)
    (v : Value) : (Exec.assign p op v m).Agrees Machine.Twin (Exec.assign p op v m') := by
  rcases h.alike.assign p op v with ⟨f, he, he'⟩ | ⟨w, name, new, ho, ho'⟩ | ⟨w, heap, ho, ho'⟩
  · rw [he, he']
    exact .error ⟨rfl, rfl⟩ h
  · rw [ho, ho']
    exact .ok w (h.modifyFrame _)
  · rw [ho, ho']
    exact .ok w (h.withWorld (g := fun w => { w with heap }) h.quiet)

/-- A native function that does not look at the stack does the same. -/
theorem Machine.Twin.native {m m' : Machine} (h : m.Twin m') {f : Native} (hf : f.Blind)
    (args : List Value) : (Exec.native f args m).Agrees Machine.Twin (Exec.native f args m') := by
  have hquiet : (f.run m.frames args m.toWorld).2.collector.enabled = false := by
    rw [hf.enabled]
    exact h.quiet
  have htwin := h.withWorld (g := fun w => (f.run m.frames args w).2) hquiet
  rw [Exec.native, Exec.native, hf.stack m.frames m'.frames, h.world]
  rw [h.world] at htwin
  rcases hr : f.run m.frames args m.toWorld with ⟨fault | v, w⟩ <;> rw [hr] at htwin
  · exact .error ⟨rfl, rfl⟩ htwin
  · exact .ok v htwin

/-! ## Evaluations -/

/-- The discipline of doing the same on machines that agree inside the call. -/
def obliviousness : Discipline where
  Holds x := ∀ m m', m.Twin m' → (x m).Agrees Machine.Twin (x m')
  Binds _ := True
  Admits m := ∀ f ∈ m.natives, f.Blind
  pure a _ _ h := .ok a h
  bind hx hf m m' h := Exec.agrees_bind (hx m m' h) hf
  exhausted _ _ _ := .outOfFuel
  check hg hk m m' h := Exec.agrees_check (hg m m' h.alike) h fun a ha => hk m a h.blind ha m m' h
  line _ _ _ h := .ok () (h.modifyFrame _)
  pending _ _ _ h := .ok () (h.modifyFrame _)
  declare _ _ _ _ h := .ok () (h.modifyFrame _)
  allocate {name} ty isConst v _ m m' h := by
    rw [Exec.allocate, Exec.modify, Exec.modify, h.alike.heap]
    have hheap := h.withWorld (g := fun w => { w with heap := (m.heap.allocate v).2 }) h.quiet
    exact .ok () (hheap.modifyFrame _).noteAllocation
  assign {p v} op _ _ _ h := h.assign p op v
  native {_ f} args hm hf _ _ h := h.native (hm f hf) args
  located line hx m m' h := Exec.agrees_located line (hx m m' h)
  inLoop hx m m' h := Exec.agrees_inLoop (fun _ _ g h => h.modifyFrame g) hx h
  inFrame f hconf hx m m' h := by
    have henter : (m.enter f).Twin (m'.enter f) :=
      ⟨h.toCallAgrees.enter f, h.quiet, h.blind⟩
    refine Exec.agrees_inFrame (hx (fun _ => trivial) _ _ henter) (fun _ _ h => h.current) ?_
    intro m₁ m₁' hm hm' h₁
    exact ⟨h.toCallAgrees.leave (hconf _ _ hm) (hconf _ _ hm') h₁.toCallAgrees, h₁.quiet, h₁.blind⟩

/-- Take two machines inside a call that agree on its frame, the number of active calls,
the constants of the top level and all that lies outside the stack, and differ in the
other frames in any way. With the collector off and no native function that looks at the
stack, a statement ends in the same way on both: with the same flow, or with the same
fault on the same line, and with machines that agree as those did. -/
theorem stmt_noninterference (n : Nat) (s : Stmt) {m m' : Machine} (h : m.CallAgrees m')
    (hoff : m.collector.enabled = false)
    (hnatives : ∀ f ∈ m.natives, f ∈ Natives.builtin ∧ f.name ≠ "collect" ∨ f.Blind) :
    ((evaluator n).stmt s m).Agrees Machine.CallAgrees ((evaluator n).stmt s m') := by
  have hblind : ∀ f ∈ m.natives, f.Blind := fun f hf =>
    (hnatives f hf).elim (fun hf => Native.blind_of_mem_builtin hf.1 hf.2) id
  have hgoverned := (Discipline.governs_evaluator obliviousness n).stmt (s := s)
    fun _ _ => trivial
  exact (hgoverned m m' ⟨h, hoff, hblind⟩).mono fun _ _ => Machine.Twin.toCallAgrees

/-! ## A variable of the caller -/

/-- A machine in the second of two calls. The top level has the constant `limit` and the
variable `hidden`, and so has the first call. -/
def insideCall (text : String) : Machine where
  collector := { threshold := 5, enabled := false }
  frames := {
    main := { Frame.topLevel with vars := [
      ("limit", { ty := .str, value := .str "ten", isConst := true }),
      ("hidden", { ty := .str, value := .str text })] }
    calls := [.call "inner" false,
      { Frame.call "outer" false with vars := [("hidden", { ty := .str, value := .str text })] }] }
  config := {}
  natives := [Native.println]

/-- The block `{ println(limit); hidden; }`. -/
def peeking : Stmt :=
  .block [.expr (Tree.lower 2 (.call (.ident "println") [.ident "limit"])) 2,
    .expr (Tree.lower 3 (.ident "hidden")) 3] 1

theorem callAgrees_insideCall (text text' : String) :
    (insideCall text).CallAgrees (insideCall text') where
  active := List.cons_ne_nil _ _
  depth := rfl
  current := rfl
  constants name := by
    simp only [insideCall, Frame.get?, List.lookup_cons, List.lookup_nil]
    cases name == "limit" <;> cases name == "hidden" <;> rfl
  world := rfl
  config := rfl
  natives := rfl
  sourceName := rfl

/-- What is printed and what fails inside the call does not depend on `hidden`. -/
theorem stmt_noninterference_peeking :
    (∃ e m, (evaluator 9).stmt peeking (insideCall "a") = .error e m ∧
      e.fault = .undefinedVariable "hidden" ∧ m.console.output = "ten\n") ∧
    ∃ e m, (evaluator 9).stmt peeking (insideCall "b") = .error e m ∧
      e.fault = .undefinedVariable "hidden" ∧ m.console.output = "ten\n" := by
  have hrun : ∃ e m, (evaluator 9).stmt peeking (insideCall "a") = .error e m ∧
      e.fault = .undefinedVariable "hidden" ∧ m.console.output = "ten\n" :=
    ⟨_, _, rfl, rfl, rfl⟩
  refine ⟨hrun, ?_⟩
  obtain ⟨e, m, he, hfault, hout⟩ := hrun
  have hnatives : ∀ f ∈ (insideCall "a").natives,
      f ∈ Natives.builtin ∧ f.name ≠ "collect" ∨ f.Blind := by
    intro f hf
    cases List.mem_singleton.1 hf
    exact .inl ⟨List.mem_of_getElem? (i := 1) rfl, by decide⟩
  have hagrees := stmt_noninterference 9 peeking (callAgrees_insideCall "a" "b") rfl hnatives
  rw [he] at hagrees
  generalize (evaluator 9).stmt peeking (insideCall "b") = r at hagrees
  cases hagrees with
  | @error _ e' _ m' hsame h =>
    refine ⟨e', m', rfl, hsame.fault.trans hfault, ?_⟩
    rw [show m'.console = m.console from congrArg World.console h.world]
    exact hout

end HeapScript
