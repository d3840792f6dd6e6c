import HeapScript.Proofs.Eval.Isolation
import HeapScript.Proofs.Machine.Outcome
import HeapScript.Proofs.Machine.Typed
import HeapScript.Proofs.Program.Lines

/-!
# Where errors are raised

An error gets its site from the innermost statement it leaves: the line of that statement
and, for each active call, the line that its frame is at.

* `FailedAt` says that a statement failed with an error, and what the trace was then.
* `Law.Traced`: each of the entries shows a statement that failed with the error in the
  frame of the entry. The statements are those that a law is about.
* `Exec.Steady` computations neither move on to another line nor call anything.
* `Law.Stands` follows the line of the innermost frame through any computation. Its rules
  are stated for computations that keep the law.
-/

namespace HeapScript

/-- The statement failed with the error and left calls with this trace behind. -/
def FailedAt (e : RuntimeError) (s : Stmt) (trace : Trace) : Prop :=
  ∃ n m m', (evaluator n).stmt s m = .error e m' ∧ m'.frames.trace = trace

namespace CallStack

/-- The trace without the innermost call. -/
def outer (s : CallStack) : Trace := s.trace.tail

theorem trace_eq (s : CallStack) : s.trace = ⟨s.current.name, s.current.line⟩ :: s.outer := by
  rcases s with ⟨main, _ | ⟨f, r⟩⟩ <;> rfl

theorem Confined.outer {s t : CallStack} (h : s.Confined t) : t.outer = s.outer := by
  rw [CallStack.outer, CallStack.outer, trace, trace, ← List.map_tail, ← List.map_tail,
    h.tail_frames]

/-- A change to the innermost frame that keeps what the trace shows of it. -/
theorem trace_modifyCurrent {s : CallStack} {g : Frame → Frame}
    (hg : ∀ f : Frame, (g f).name = f.name ∧ (g f).line = f.line) :
    (s.modifyCurrent g).trace = s.trace := by
  rcases s with ⟨main, _ | ⟨f, r⟩⟩ <;>
    simp [trace, frames, modifyCurrent, (hg _).1, (hg _).2]

end CallStack

theorem Machine.line_declare (m : Machine) (name : String) (x : Variable) :
    (m.declare name x).frames.current.line = m.frames.current.line := by
  rw [declare, current_modifyFrame]
  rfl

/-! ## Steady computations -/

namespace Exec

variable {α β : Type}

/-- The computation leaves the line of the innermost frame as it is, and its errors have no
site. -/
def Steady (x : Exec α) : Prop :=
  ∀ m, match x m with
    | .ok _ m' => m'.frames.current.line = m.frames.current.line
    | .error e m' => e.site = none ∧ m'.frames.current.line = m.frames.current.line
    | .outOfFuel => True

theorem steady_pure (a : α) : (pure a : Exec α).Steady := fun _ => rfl

theorem steady_fail (f : Fault) : (fail f : Exec α).Steady := fun _ => ⟨rfl, rfl⟩

theorem steady_read (g : Machine → α) : (read g).Steady := fun _ => rfl

theorem steady_check (g : Machine → Except Fault α) : (check g).Steady := by
  intro m
  rw [check]
  cases g m with
  | ok a => rfl
  | error f => exact ⟨rfl, rfl⟩

theorem steady_modify {g : Machine → Machine}
    (hg : ∀ m, (g m).frames.current.line = m.frames.current.line) : (modify g).Steady := hg

theorem steady_bind {x : Exec α} {f : α → Exec β} (hx : x.Steady) (hf : ∀ a, (f a).Steady) :
    (x >>= f).Steady := by
  intro m
  have hx := hx m
  rw [bind_apply]
  cases hr : x m with
  | ok a m' =>
    rw [hr] at hx
    have hf := hf a m'
    cases hr' : f a m' with
    | ok b m'' =>
      simp only [hr'] at hf ⊢
      exact hf.trans hx
    | error e m'' =>
      simp only [hr'] at hf ⊢
      exact ⟨hf.1, hf.2.trans hx⟩
    | outOfFuel => simp only [hr']
  | error e m' =>
    rw [hr] at hx
    exact hx
  | outOfFuel => trivial

theorem steady_assign (p : Place) (op : AssignOp) (v : Value) : (assign p op v).Steady := by
  intro m
  rcases assign_cases p op v m with ⟨f, hrun⟩ | ⟨slot, w, m', -, -, hm', hrun⟩
  · rw [hrun]
    exact ⟨rfl, rfl⟩
  · rw [hrun]
    obtain ⟨old, new, rootTy, -, -, ⟨name, -, rfl⟩ | ⟨index, heap, -, -, rfl⟩⟩ :=
      Machine.writePlace_cases hm'
    · show (m.modifyFrame _).frames.current.line = _
      rw [Machine.current_modifyFrame]
      rfl
    · exact rfl

end Exec

namespace Law

variable (L : Law)

/-- The site of the error has the entries `shown` in front of `outer`. Each of them shows a
statement of its frame, and the line of the site is that of the innermost one. -/
structure Traced (e : RuntimeError) (site : Site) (shown outer : Trace) : Prop where
  trace : site.trace = shown ++ outer
  frames (inner : Trace) (entry : TraceEntry) (rest : Trace) : shown = inner ++ entry :: rest →
    ∃ s : Stmt, s.Within L.Source L.Code ∧ FailedAt e s (entry :: (rest ++ outer)) ∧
      s.Shows entry.line ∧ (inner = [] → site.line = s.line)

/-- The error has a site, with an entry for the innermost frame of the machine. -/
def Placed (m : Machine) (e : RuntimeError) : Prop :=
  ∃ site shown line, e.site = some site ∧ site.source = m.sourceName ∧
    L.Traced e site (shown ++ [⟨m.frames.current.name, line⟩]) m.frames.outer

/-- If the error has a site, it was raised in a call that the machine has left. -/
def Inside (m : Machine) (e : RuntimeError) : Prop :=
  ∀ site, e.site = some site → site.source = m.sourceName ∧
    ∃ shown, shown ≠ [] ∧ L.Traced e site shown m.frames.trace

/-- A computation that was started on the machine leaves the innermost frame at a line
`ok`. If it fails, then a statement that it executed in this frame did, or nothing did but
the computation itself, at a line `err`. -/
def Stands (ok err : Nat → Prop) (m : Machine) {α : Type} : Result α → Prop
  | .ok _ m' => ok m'.frames.current.line
  | .error e m' => L.Placed m e ∨ err m'.frames.current.line ∧ L.Inside m' e
  | .outOfFuel => True

/-- The computation stays at the line at which it was started. -/
abbrev Stays (m : Machine) {α : Type} (r : Result α) : Prop :=
  L.Stands (· = m.frames.current.line) (· = m.frames.current.line) m r

variable {L}

/-! ## Traces -/

section Traces

variable {e : RuntimeError} {site : Site} {shown outer : Trace}

theorem traced_nil (h : site.trace = outer) : L.Traced e site [] outer :=
  ⟨h, fun inner _ _ hnil => by simp at hnil⟩

/-- One more entry, for a frame whose statement fails with an error that was raised in a
call, or raises it itself. -/
theorem Traced.concat {entry : TraceEntry} {s : Stmt}
    (h : L.Traced e site shown (entry :: outer)) (hs : s.Within L.Source L.Code)
    (hfail : FailedAt e s (entry :: outer)) (hshow : s.Shows entry.line)
    (hline : shown = [] → site.line = s.line) : L.Traced e site (shown ++ [entry]) outer := by
  refine ⟨by rw [h.trace, List.append_assoc]; rfl, fun inner entry' rest hsplit => ?_⟩
  rcases List.eq_nil_or_concat rest with rfl | ⟨rest, last, rfl⟩
  · obtain ⟨rfl, hlast⟩ := List.append_inj' hsplit rfl
    cases hlast
    exact ⟨s, hs, hfail, hshow, hline⟩
  · have hsplit' : shown ++ [entry] = (inner ++ entry' :: rest) ++ [last] := by
      rw [hsplit, List.concat_eq_append, List.append_assoc]
      rfl
    obtain ⟨hshown, hlast⟩ := List.append_inj' hsplit' rfl
    cases hlast
    obtain ⟨t, ht, htfail, htshow, htline⟩ := h.frames inner entry' rest hshown
    rw [List.concat_eq_append, List.append_assoc]
    exact ⟨t, ht, htfail, htshow, htline⟩

/-- The lines that are shown are lines of statements. -/
theorem Traced.lines {Q : Nat → Prop} (h : L.Traced e site shown outer)
    (hQ : ∀ s, L.Code s → Q s.line) (hne : shown ≠ []) :
    Q site.line ∧ ∀ entry ∈ shown, Q entry.line := by
  refine ⟨?_, fun entry hentry => ?_⟩
  · obtain ⟨entry, rest, rfl⟩ := List.exists_cons_of_ne_nil hne
    obtain ⟨s, hs, -, -, hline⟩ := h.frames [] entry rest rfl
    rw [hline rfl]
    exact hQ s hs.self
  · obtain ⟨inner, rest, rfl⟩ := List.append_of_mem hentry
    obtain ⟨s, hs, -, hshow, -⟩ := h.frames inner entry rest rfl
    exact hshow.of_within hs hQ

theorem Placed.of_confined {m m' : Machine} (hm : m.Confined m') (h : L.Placed m' e) :
    L.Placed m e := by
  obtain ⟨site, shown, line, hsite, hsource, htraced⟩ := h
  rw [hm.frames.call.name, hm.frames.outer] at htraced
  exact ⟨site, shown, line, hsite, hsource.trans hm.sourceName, htraced⟩

theorem inside_of_none {m : Machine} (h : e.site = none) : L.Inside m e := by
  intro site hsite
  rw [h] at hsite
  cases hsite

end Traces

/-! ## Rules -/

section Rules

variable {α β : Type} {m : Machine} {ok err ok' err' : Nat → Prop} {Q : α → Machine → Prop}
  {line : Nat}

theorem Stands.mono {r : Result α} (h : L.Stands ok err m r) (hok : ∀ l, ok l → ok' l)
    (herr : ∀ l, err l → err' l) : L.Stands ok' err' m r := by
  cases r with
  | ok a m' => exact hok _ h
  | error e m' => exact h.imp_right (And.imp_left (herr _))
  | outOfFuel => trivial

/-- A computation that fails only where a statement does. -/
theorem Stands.of_never {r : Result α} (h : L.Stands ok (fun _ => False) m r)
    (hok : ∀ l, ok l → ok' l) : L.Stands ok' err m r :=
  h.mono hok fun _ h => h.elim

/-- A computation on a machine whose innermost frame is that of an earlier one. -/
theorem Stands.of_confined {m' : Machine} (hm : m.Confined m') {r : Result α}
    (h : L.Stands ok err m' r) : L.Stands ok err m r := by
  cases r with
  | ok a m'' => exact h
  | error e m'' => exact h.imp_left (Placed.of_confined hm)
  | outOfFuel => trivial

theorem Stands.bind {x : Exec α} {f : α → Exec β} (h : L.Stands ok err m (x m))
    (hx : L.After m Q (x m))
    (hf : ∀ a m', L.Next m m' → Q a m' → ok m'.frames.current.line → L.Stands ok' err m' (f a m')) :
    L.Stands ok' err m ((x >>= f) m) := by
  rw [Exec.bind_apply]
  cases hr : x m with
  | ok a m' =>
    rw [hr] at h hx
    exact (hf a m' hx.1 hx.2 h).of_confined hx.1.confined
  | error e m' =>
    rw [hr] at h
    exact h
  | outOfFuel => trivial

theorem Stays.bind {x : Exec α} {f : α → Exec β} (h : L.Stays m (x m)) (hx : L.After m Q (x m))
    (hf : ∀ a m', L.Next m m' → Q a m' → L.Stays m' (f a m')) : L.Stays m ((x >>= f) m) := by
  refine Stands.bind h hx fun a m' hn ha hline => ?_
  rw [← hline]
  exact hf a m' hn ha

theorem Stays.of_steady {x : Exec α} (hx : x.Steady) {m' : Machine}
    (h : m'.frames.current.line = m.frames.current.line) : L.Stays m (x m') := by
  have hx := hx m'
  cases hr : x m' with
  | ok a m'' =>
    rw [hr] at hx
    exact hx.trans h
  | error e m'' =>
    rw [hr] at hx
    exact .inr ⟨hx.2.trans h, inside_of_none hx.1⟩
  | outOfFuel => trivial

/-- What follows a computation is steady. -/
theorem Stays.steady {x : Exec α} {f : α → Exec β} (h : L.Stays m (x m))
    (hf : ∀ a, (f a).Steady) : L.Stays m ((x >>= f) m) := by
  rw [Exec.bind_apply]
  cases hr : x m with
  | ok a m' =>
    rw [hr] at h
    exact .of_steady (hf a) h
  | error e m' =>
    rw [hr] at h
    exact h
  | outOfFuel => trivial

/-- A question that comes first finds a fault, or leaves the machine as it is. -/
theorem stands_check {g : Machine → Except Fault α} {f : α → Exec β}
    (herr : err m.frames.current.line) (hf : ∀ a, g m = .ok a → L.Stands ok err m (f a m)) :
    L.Stands ok err m ((Exec.check g >>= f) m) := by
  rw [Exec.bind_apply, Exec.check]
  cases hg : g m with
  | ok a => exact hf a hg
  | error f => exact .inr ⟨herr, inside_of_none rfl⟩

theorem stands_read {g : Machine → α} {f : α → Exec β} (h : L.Stands ok err m (f (g m) m)) :
    L.Stands ok err m ((Exec.read g >>= f) m) := h

theorem stays_each {f : α → Exec β} {as : List α} (hm : L.Inv m)
    (hafter : ∀ a ∈ as, ∀ m, L.Inv m → L.After m (fun _ _ => True) (f a m))
    (hf : ∀ a ∈ as, ∀ m, L.Inv m → L.Stays m (f a m)) : L.Stays m (Exec.each f as m) := by
  induction as generalizing m with
  | nil => exact .of_steady (Exec.steady_pure []) rfl
  | cons a as ih =>
    have hafter' : ∀ b ∈ as, ∀ m, L.Inv m → L.After m (fun _ _ => True) (f b m) :=
      fun b hb => hafter b (List.mem_cons_of_mem _ hb)
    refine Stays.bind (hf a List.mem_cons_self m hm) (hafter a List.mem_cons_self m hm)
      fun b m₁ h₁ _ => ?_
    refine (ih h₁.inv hafter' fun b hb => hf b (List.mem_cons_of_mem _ hb)).steady fun bs => ?_
    exact Exec.steady_pure _

/-- Entering and leaving a loop does not change the line. -/
theorem stands_inLoop {x : Exec α} (hm : L.Inv m) (hx : ∀ m', L.Inv m' →
      m'.frames.current.line = m.frames.current.line → L.Stands ok err m' (x m')) :
    L.Stands ok err m (Exec.inLoop x m) := by
  let entered := m.modifyFrame fun f => { f with loopDepth := f.loopDepth + 1 }
  obtain ⟨hinv, -, -⟩ := L.touch (g := fun f => { f with loopDepth := f.loopDepth + 1 }) hm
    fun f => ⟨rfl, rfl, rfl⟩
  have hbody := hx entered hinv (by rw [Machine.current_modifyFrame])
  have hleave (m' : Machine) :
      (m'.modifyFrame fun f => { f with loopDepth := f.loopDepth - 1 }).frames.current.line =
        m'.frames.current.line := by
    rw [Machine.current_modifyFrame]
  rw [Exec.inLoop]
  cases hr : x entered with
  | ok a m' =>
    rw [hr] at hbody
    show ok _
    rw [hleave]
    exact hbody
  | error e m' =>
    rw [hr] at hbody
    rcases hbody with ⟨site, shown, line, hsite, hsource, htraced⟩ | ⟨herr, hinside⟩
    · have hname : entered.frames.current.name = m.frames.current.name := by
        rw [Machine.current_modifyFrame]
      have houter : entered.frames.outer = m.frames.outer :=
        congrArg List.tail (CallStack.trace_modifyCurrent fun f => ⟨rfl, rfl⟩)
      rw [hname, houter] at htraced
      exact .inl ⟨site, shown, line, hsite, hsource, htraced⟩
    · refine .inr ⟨by rwa [hleave], fun site hsite => ?_⟩
      obtain ⟨hsource, shown, hshown, htraced⟩ := hinside site hsite
      have htrace := CallStack.trace_modifyCurrent (s := m'.frames)
        (g := fun f => { f with loopDepth := f.loopDepth - 1 }) fun f => ⟨rfl, rfl⟩
      exact ⟨hsource, shown, hshown, htrace ▸ htraced⟩
  | outOfFuel => trivial

/-- A call returns to the line it was made at. An error that leaves its frame has a site
with an entry for that. -/
theorem stays_inFrame {x : Exec α} {f : Frame} {ok : Nat → Prop}
    (h : L.Stands ok (fun _ => False) (m.enter f) (x (m.enter f)))
    (hx : L.After (m.enter f) Q (x (m.enter f))) : L.Stays m (Exec.inFrame f x m) := by
  cases hr : x (m.enter f) with
  | ok a m' =>
    rw [hr] at hx
    rw [Exec.inFrame_ok hr]
    exact congrArg (Frame.line ∘ CallStack.current) hx.1.confined.frames.pop_eq
  | error e m' =>
    rw [hr] at h hx
    rw [Exec.inFrame_error hr]
    have hpop : m'.leave.frames = m.frames := hx.1.confined.frames.pop_eq
    obtain ⟨site, shown, line, hsite, hsource, htraced⟩ := h.resolve_right fun h => h.1
    refine .inr ⟨by rw [hpop], fun site' hsite' => ?_⟩
    cases hsite.symm.trans hsite'
    refine ⟨hsource.trans hx.1.confined.sourceName.symm, shown ++ [⟨f.name, line⟩], by simp, ?_⟩
    rw [hpop]
    exact htraced
  | outOfFuel =>
    rw [Exec.inFrame_outOfFuel hr]
    trivial

/-- A statement is started at its own line, and what is raised there gets that line. -/
theorem stands_stmt {n : Nat} {s : Stmt} (hs : s.Within L.Source L.Code) (hm : L.Inv m)
    (h : ∀ m', L.Inv m' → m'.frames.current.line = s.line →
      L.Stands s.Covers s.Shows m' ((evaluator n).dispatch n s m')) :
    L.Stands s.Covers (fun _ => False) m ((evaluator (n + 1)).stmt s m) := by
  let started := m.modifyFrame fun f => { f with line := s.line }
  have hstart : m.Confined started := .modifyFrame fun _ => ⟨rfl, rfl, rfl, rfl⟩
  obtain ⟨hinv, -, -⟩ := L.touch (g := fun f => { f with line := s.line }) hm
    fun f => ⟨rfl, rfl, rfl⟩
  have hd := h started hinv (by rw [Machine.current_modifyFrame])
  have hafter := (respects_evaluator L n).dispatch hs n hinv
  have hstmt : (evaluator (n + 1)).stmt s m =
      Exec.located s.line ((evaluator n).dispatch n s) started := rfl
  refine Stands.of_confined hstart ?_
  cases hr : (evaluator n).dispatch n s started with
  | ok flow m' =>
    rw [hstmt, Exec.located, hr]
    rw [hr] at hd
    exact hd
  | outOfFuel =>
    rw [hstmt, Exec.located, hr]
    trivial
  | error e m' =>
    rw [hr] at hd hafter
    have hentry : m'.frames.trace =
        ⟨started.frames.current.name, m'.frames.current.line⟩ :: started.frames.outer := by
      rw [m'.frames.trace_eq, hafter.1.confined.frames.call.name, hafter.1.confined.frames.outer]
    rcases hsite : e.site with _ | site
    · -- the statement itself raised the error
      let site : Site := ⟨m'.sourceName, s.line, m'.frames.trace⟩
      have hresult : (evaluator (n + 1)).stmt s m = .error { e with site := some site } m' := by
        rw [hstmt, Exec.located, hr]
        simp only [hsite]
        rfl
      have hnot : ¬L.Placed started e := by
        rintro ⟨_, _, _, h, -⟩
        rw [hsite] at h
        cases h
      have hshow := (hd.resolve_left hnot).1
      rw [hresult]
      refine .inl ⟨site, [], m'.frames.current.line, rfl, hafter.1.confined.sourceName, ?_⟩
      exact (traced_nil hentry).concat hs ⟨_, _, _, hresult, hentry⟩ hshow fun _ => rfl
    · have hresult : (evaluator (n + 1)).stmt s m = .error e m' := by
        rw [hstmt, Exec.located, hr]
        simp only [hsite]
      rw [hresult]
      rcases hd with hplaced | ⟨hshow, hinside⟩
      · exact .inl hplaced
      · obtain ⟨hsource, shown, hshown, htraced⟩ := hinside site hsite
        rw [hentry] at htraced
        refine .inl ⟨site, shown, m'.frames.current.line, hsite, ?_, ?_⟩
        · exact hsource.trans hafter.1.confined.sourceName
        · exact htraced.concat hs ⟨_, _, _, hresult, hentry⟩ hshow fun h => absurd h hshown

end Rules

end Law

end HeapScript
