import HeapScript.Proofs.Law.Statement

/-!
# Calls are isolated from each other

A statement changes variables in the frame it runs in and in no other one, and it
leaves as many frames and loop levels behind as it found, whether it succeeds or
fails.

* `isolation` is the law that asks nothing of values, and of an error that its
  trace is no longer than the limit on calls allows. That the frames around the
  innermost one stay is part of every law (`Law.Next`).
* `stmt_isolated` is what follows for every statement on every machine.
-/

namespace HeapScript

/-- The trace of the error fits the limit on calls, if the machine does. -/
def RuntimeError.FitsLimit (m : Machine) (e : RuntimeError) : Prop :=
  m.frames.depth ≤ m.config.maxCallDepth →
    ∀ site, e.site = some site → site.trace.length ≤ m.config.maxCallDepth + 1

theorem CallStack.length_trace (s : CallStack) : s.trace.length = s.depth + 1 := by
  rw [CallStack.trace, List.length_map, CallStack.frames, List.length_append]
  rfl

theorem RuntimeError.fitsLimit_congr {m m' : Machine} {e : RuntimeError}
    (hd : m'.frames.depth = m.frames.depth) (hc : m'.config = m.config) (h : e.FitsLimit m') :
    e.FitsLimit m := by
  intro hm
  rw [← hc]
  apply h
  rw [hd, hc]
  exact hm

/-- The law that bounds the traces of errors. -/
def isolation : Law where
  Source _ := True
  Code _ := True
  Declares _ _ := True
  Inv _ := True
  Later _ _ := True
  Err m e := e.FitsLimit m
  Stored _ _ := True
  Data _ _ := True
  Fits _ _ _ _ := True
  later_refl _ := trivial
  later_trans _ _ := trivial
  err_of_later hc _ h := RuntimeError.fitsLimit_congr hc.frames.depth_eq hc.config h
  stored_later _ _ := trivial
  data_later _ _ := trivial
  fits_later _ _ := trivial
  stored_of_data _ := trivial
  declares_of_decl _ := trivial
  declares_of_param _ _ := trivial
  declares_of_member _ _ := trivial
  fault _ := by rintro - _ ⟨⟩
  missing _ _ := by rintro - _ ⟨⟩
  located line hc _ _ _ := by
    rintro hm _ ⟨⟩
    show (CallStack.trace _).length ≤ _
    rw [CallStack.length_trace, hc.frames.depth_eq]
    omega
  lookup _ _ := trivial
  deref _ _ _ := trivial
  num _ _ := trivial
  str _ _ := trivial
  bool _ _ := trivial
  void _ := trivial
  function _ _ _ _ _ _ := trivial
  array _ _ _ _ _ := trivial
  binary _ _ _ := trivial
  unary _ _ := trivial
  member _ _ _ _ := trivial
  element _ _ := trivial
  object _ _ := trivial
  reference _ _ _ _ := trivial
  conform _ _ _ _ := trivial
  default _ _ _ := trivial
  classDef _ _ _ _ := trivial
  returned _ _ _ _ := trivial
  touch {m g} _ _ := by
    have hd : (m.modifyFrame g).frames.depth = m.frames.depth :=
      CallStack.depth_modifyCurrent m.frames g
    exact ⟨trivial, trivial, fun e h => RuntimeError.fitsLimit_congr hd rfl h⟩
  pending _ _ := ⟨trivial, trivial⟩
  declare _ _ _ _ := ⟨trivial, trivial⟩
  allocate _ _ _ _ _ := ⟨trivial, trivial⟩
  assign _ _ _ _ _ _ _ := ⟨trivial, trivial, trivial⟩
  native _ _ _ _ _ _ := ⟨trivial, trivial, fun _ _ => trivial, fun _ _ => by rintro - _ ⟨⟩⟩
  body _ := ⟨fun _ _ => trivial, fun _ _ => trivial⟩
  enter _ _ _ _ _ _ := trivial
  leave _ _ _ _ := ⟨trivial, trivial, fun _ _ => trivial⟩
  err_of_enter hd h _ := h hd

theorem Stmt.every_true (s : Stmt) : s.Within (fun _ => True) fun _ => True :=
  ⟨fun _ _ => trivial, fun _ _ => trivial⟩

theorem Expr.within_true (e : Expr) : e.Within (fun _ => True) fun _ => True :=
  ⟨fun _ _ => trivial, fun _ _ _ _ _ _ => trivial⟩

/-- Whatever the outcome of a statement, it changed the innermost frame only. -/
theorem confined_of_stmt {n : Nat} {s : Stmt} {m m' : Machine}
    (h : ((evaluator n).stmt s m).machine? = some m') : m.Confined m' := by
  have hafter := (Law.respects_evaluator isolation n).stmt (m := m) s.every_true trivial
  exact (hafter.next h).confined

/-- A computation that changes the innermost frame only, run in a frame of its own,
leaves the stack as it was. -/
theorem frames_of_inFrame {α : Type} {x : Exec α} {f : Frame} {m m' : Machine}
    (hx : ∀ m', (x (m.enter f)).machine? = some m' → (m.enter f).Confined m')
    (h : (Exec.inFrame f x m).machine? = some m') : m'.frames = m.frames := by
  have hpop : ∀ m'', (m.enter f).Confined m'' → m''.leave.frames = m.frames :=
    fun m'' hc => hc.frames.pop_eq
  cases hr : x (m.enter f) with
  | ok a m'' =>
    rw [Exec.inFrame_ok hr] at h
    cases h
    exact hpop m'' (hx m'' (by rw [hr]; rfl))
  | error e m'' =>
    rw [Exec.inFrame_error hr] at h
    cases h
    exact hpop m'' (hx m'' (by rw [hr]; rfl))
  | outOfFuel =>
    rw [Exec.inFrame_outOfFuel hr] at h
    cases h

/-- An error that leaves a statement has a site. -/
theorem site_of_located {α : Type} {line : Nat} {x : Exec α} {m m' : Machine} {e : RuntimeError}
    (h : Exec.located line x m = .error e m') : ∃ site, e.site = some site := by
  rw [Exec.located] at h
  cases hr : x m with
  | ok a m'' =>
    rw [hr] at h
    cases h
  | outOfFuel =>
    rw [hr] at h
    cases h
  | error e' m'' =>
    rcases e' with ⟨f, _ | site⟩
    · simp only [hr] at h
      cases h
      exact ⟨_, rfl⟩
    · simp only [hr] at h
      cases h
      exact ⟨site, rfl⟩

theorem site_of_stmt {n : Nat} {s : Stmt} {m m' : Machine} {e : RuntimeError}
    (h : (evaluator n).stmt s m = .error e m') : ∃ site, e.site = some site := by
  cases n with
  | zero => cases h
  | succ n => exact site_of_located h

/-- Whatever the outcome of a statement, the stack is as deep as before, every frame
but the innermost is the same, and the innermost one has the name, the flags and the
loop depth it had. So the body of a call, run in a frame of its own, leaves the whole
stack as it was; and the trace of an error has at most one entry more than there may
be calls. -/
theorem stmt_isolated (n : Nat) (s : Stmt) (m : Machine) :
    (∀ m', ((evaluator n).stmt s m).machine? = some m' →
      m'.frames.depth = m.frames.depth ∧ m'.frames.frames.tail = m.frames.frames.tail ∧
        m.frames.current.SameCall m'.frames.current) ∧
    (∀ f m', (Exec.inFrame f ((evaluator n).stmt s) m).machine? = some m' →
      m'.frames = m.frames) ∧
    ∀ e m', (evaluator n).stmt s m = .error e m' →
      ∃ site, e.site = some site ∧
        (m.frames.depth ≤ m.config.maxCallDepth →
          site.trace.length ≤ m.config.maxCallDepth + 1) := by
  refine ⟨fun m' h => ?_, fun f m' h => ?_, fun e m' h => ?_⟩
  · have hc := (confined_of_stmt h).frames
    exact ⟨hc.depth_eq, hc.tail_frames, hc.call⟩
  · exact frames_of_inFrame (fun _ => confined_of_stmt) h
  · obtain ⟨site, hsite⟩ := site_of_stmt h
    have hafter := (Law.respects_evaluator isolation n).stmt (m := m) s.every_true trivial
    rw [h] at hafter
    exact ⟨site, hsite, fun hd => hafter.2 hd site hsite⟩

/-! ## A call that descends too far -/

/-- The statement `f();`. -/
def descent : Stmt :=
  .expr ⟨[.instr (.ident "f"), .instr (.call [])], 2⟩ 2

/-- A machine that allows one call, with a function `f` that calls itself. -/
def shallow : Machine where
  collector := { threshold := 5, enabled := true }
  frames := { main := { Frame.topLevel with vars := [("f", {
    ty := .func
    value := .function { definition := {
      params := [], returnType := .void, returnsRef := false, captures := false
      body := descent, line := 1 } } })] } }
  config := { maxCallDepth := 1 }
  natives := []

theorem stmt_isolated_descent :
    ∃ e m' site, (evaluator 9).stmt descent shallow = .error e m' ∧ e.site = some site ∧
      m'.frames.depth = 0 ∧ m'.frames.frames.tail = [] ∧ m'.frames.current.loopDepth = 0 ∧
      site.trace.length ≤ 2 := by
  have hrun : ∃ e m', (evaluator 9).stmt descent shallow = .error e m' := ⟨_, _, rfl⟩
  obtain ⟨e, m', h⟩ := hrun
  obtain ⟨hkeep, -, herr⟩ := stmt_isolated 9 descent shallow
  obtain ⟨site, hsite, hlength⟩ := herr e m' h
  obtain ⟨hdepth, htail, hcall⟩ := hkeep m' (by rw [h]; rfl)
  exact ⟨e, m', site, h, hsite, hdepth, htail, hcall.loopDepth, hlength (by decide)⟩

end HeapScript
