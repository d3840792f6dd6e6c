import HeapScript.Proofs.Law.Bodies
import HeapScript.Proofs.Position.Evaluator
import HeapScript.Proofs.Program.Check

/-!
# The position of an error

* `traced_of_runWith`: an error that ends a run of a program has a site, and the trace of
  the site shows statements of the program or of the functions that the machine held.
* `error_position`: the entry of each frame is at the line of the statement that failed in
  it, and the innermost one at the line of the error, unless that statement is a loop that
  looks at a condition.
* `error_position_stale`: a loop looks at its condition again when its frame is still at
  the line of its body.
-/

namespace HeapScript

variable {C : Stmt → Prop} {m m' : Machine} {p : Program} {fuel : Nat} {e : RuntimeError}

/-- The law of functions whose bodies have such statements only, and of their programs. -/
abbrev bodiesLaw (C : Stmt → Prop) : Law := (Trait.ofBodies (fun _ => True) C).law

/-- The functions that the machine holds have such statements only. -/
def Machine.HoldsCode (C : Stmt → Prop) (m : Machine) : Prop :=
  ∀ v, m.Stores v → v.Every (Value.BodiesIn (fun _ => True) C)

theorem Trait.inv_ofBodies (hn : m.natives = .builtin) (hheap : m.heap.WellFormed)
    (hcode : m.HoldsCode C) : (Trait.ofBodies (fun _ => True) C).Inv m where
  natives := hn
  heap := hheap
  holding :=
    { frames := fun _ hf =>
        ⟨fun _ hx => ⟨trivial, hcode _ (.var hf hx)⟩, fun v hv => hcode v (.pending hf hv)⟩
      chunks := fun _ v hv => hcode v (.chunk hv) }

theorem Machine.outer_eq_nil (hcalls : m.frames.calls = []) : m.frames.outer = [] := by
  rw [CallStack.outer, CallStack.trace, CallStack.frames, hcalls]
  rfl

/-- An error that ends a run at the top level has a site whose trace ends in the top
level. -/
theorem Law.traced_of_runWith {L : Law} (hp : ∀ s ∈ p.statements, s.Within L.Source L.Code)
    (hm : L.Inv { m with sourceName := p.sourceName }) (hcalls : m.frames.calls = [])
    (h : m.runWith fuel p = .error e m') :
    ∃ site shown line, e.site = some site ∧ site.source = p.sourceName ∧
      L.Traced e site (shown ++ [⟨m.frames.main.name, line⟩]) [] := by
  obtain ⟨site, shown, line, hsite, hsource, htraced⟩ := Law.placed_of_runStatements hp hm h
  have hcurrent : m.frames.current = m.frames.main := by rw [CallStack.current, hcalls]
  have houter : m.frames.outer = [] := Machine.outer_eq_nil hcalls
  exact ⟨site, shown, line, hsite, hsource, hcurrent ▸ houter ▸ htraced⟩

/-- An error that ends a run at the top level has a site: the source of the program, a
line, and a trace that ends in the top level. Let the program and the functions that the
machine holds have only statements with a property. Then each entry of the trace is at the
line of such a statement, one that failed with the error when the calls were those from
this entry on; and the line of the error is that of the statement of the innermost entry.
But a loop that looks at a condition may be shown at the line of a statement in it. -/
theorem error_position (hcalls : m.frames.calls = []) (hmain : m.frames.main.name = "<main>")
    (h : m.runWith fuel p = .error e m') :
    ∃ site, e.site = some site ∧ site.source = p.sourceName ∧
      (∃ line, site.trace.getLast? = some ⟨"<main>", line⟩) ∧
      ∀ C : Stmt → Prop, (∀ s, p.Contains s → C s) → m.natives = .builtin →
        m.heap.WellFormed → m.HoldsCode C →
        ∀ inner entry outer, site.trace = inner ++ entry :: outer →
          ∃ s, C s ∧ FailedAt e s (entry :: outer) ∧
            (entry.line = s.line ∨ s.Tests ∧ s.Covers entry.line) ∧
            (inner = [] → site.line = s.line) := by
  obtain ⟨site, shown, line, hsite, hsource, htraced⟩ :=
    Law.traced_of_runWith (L := isolation) (fun s _ => s.every_true) trivial hcalls h
  refine ⟨site, hsite, hsource, ⟨line, ?_⟩,
    fun C hC hn hheap hcode inner entry outer hsplit => ?_⟩
  · rw [htraced.trace, List.append_nil, List.getLast?_concat, hmain]
  · have hinv := (Trait.inv_ofBodies hn hheap hcode).named p.sourceName
    obtain ⟨site', shown', line', hsite', -, htraced'⟩ := Law.traced_of_runWith
      (L := bodiesLaw C) (Program.within (fun _ _ => trivial) hC) hinv hcalls h
    cases hsite.symm.trans hsite'
    rw [htraced'.trace, List.append_nil] at hsplit
    obtain ⟨s, hs, hfail, hshow, hline⟩ := htraced'.frames inner entry outer hsplit
    rw [List.append_nil] at hfail
    exact ⟨s, hs.self, hfail, hshow, hline⟩

/-! ## An error in a call -/

/-- The statements `func f() { ghost; }` on the lines 1 and 2, and `if (true) f();` on the
lines 3 and 4. -/
def haunted : List Stmt :=
  [.decl { isConst := true } .func "f" (some ((Tree.function {
      params := [], returnType := .void, returnsRef := false, captures := false, line := 1
      body := .block [.expr ((Tree.ident "ghost").lower 2) 2] 1 }).lower 1)) 1,
    .ifThen ((Tree.bool true).lower 3) (.expr ((Tree.call (.ident "f") []).lower 4) 4) none 3]

/-- Whether the statement is no loop with a condition to look at. -/
def Stmt.runsOnce : Stmt → Bool
  | .whileLoop _ _ _ | .forLoop _ (some _) _ _ _ => false
  | _ => true

theorem Stmt.not_tests_of_runsOnce {s : Stmt} (h : s.runsOnce = true) : ¬s.Tests := by
  cases s with
  | whileLoop => cases h
  | forLoop _ cond =>
    cases cond with
    | none => exact fun h => h
    | some => cases h
  | _ => exact fun h => h

/-- Without a loop, the lines of the trace are those of the statements that failed. -/
theorem error_position_haunted :
    ∃ e m' site, (Machine.create {} .builtin .silent {}).runWith 12 ⟨"main", haunted⟩ =
        .error e m' ∧
      e.site = some site ∧ site.source = "main" ∧ site.line = 2 ∧
      site.trace = [⟨"f", 2⟩, ⟨"<main>", 4⟩] ∧
      (∃ s, FailedAt e s [⟨"f", 2⟩, ⟨"<main>", 4⟩] ∧ s.line = 2) ∧
      ∃ s, FailedAt e s [⟨"<main>", 4⟩] ∧ s.line = 4 := by
  have hrun : ∃ e m', (Machine.create {} .builtin .silent {}).runWith 12 ⟨"main", haunted⟩ =
      .error e m' ∧ e.site = some ⟨"main", 2, [⟨"f", 2⟩, ⟨"<main>", 4⟩]⟩ := ⟨_, _, rfl, rfl⟩
  obtain ⟨e, m', hrun, hsite'⟩ := hrun
  obtain ⟨site, hsite, hsource, -, hframes⟩ := error_position rfl rfl hrun
  cases hsite.symm.trans hsite'
  have hcheck : Program.check ⟨"main", haunted⟩ (fun _ => true) Stmt.runsOnce = true := rfl
  have hC : ∀ s, Program.Contains ⟨"main", haunted⟩ s → ¬s.Tests := fun s hs =>
    Stmt.not_tests_of_runsOnce (Program.contains_of_check hcheck hs)
  have hcode : (Machine.create {} .builtin .silent {}).HoldsCode fun s => ¬s.Tests :=
    fun v hv => (Trait.inv_create (T := .ofBodies _ _) {} .silent {}).stores hv
  have hframes := hframes _ hC rfl Heap.wellFormed_empty hcode
  refine ⟨e, m', _, hrun, hsite, hsource, rfl, rfl, ?_, ?_⟩
  · obtain ⟨s, hs, hfail, hline | ⟨htests, -⟩, -⟩ := hframes [] _ _ rfl
    · exact ⟨s, hfail, hline.symm⟩
    · exact absurd htests hs
  · obtain ⟨s, hs, hfail, hline | ⟨htests, -⟩, -⟩ := hframes [_] _ _ rfl
    · exact ⟨s, hfail, hline.symm⟩
    · exact absurd htests hs

/-! ## An error in a condition -/

/-- The tokens of `var x = true;`, `while (x)` and `x = "s";` on the lines 1, 2 and 3. -/
def staleTokens : List Token :=
  [⟨.ident "var", "var", 1⟩, ⟨.ident "x", "x", 1⟩, ⟨.symbol (.assign .assign), "=", 1⟩,
    ⟨.symbol (.keyword .trueValue), "true", 1⟩, ⟨.symbol (.delimiter .semicolon), ";", 1⟩,
    ⟨.symbol (.keyword .whileLoop), "while", 2⟩, ⟨.symbol (.delimiter .lparen), "(", 2⟩,
    ⟨.ident "x", "x", 2⟩, ⟨.symbol (.delimiter .rparen), ")", 2⟩,
    ⟨.ident "x", "x", 3⟩, ⟨.symbol (.assign .assign), "=", 3⟩, ⟨.str "s", "\"s\"", 3⟩,
    ⟨.symbol (.delimiter .semicolon), ";", 3⟩, ⟨.eof, "", 3⟩]

/-- The error of a condition that a loop looks at again has the line of the loop, but the
trace still shows the line of its body. -/
theorem error_position_stale :
    ∃ p e m' site, parse "main" staleTokens = .ok p ∧
      (Machine.create {} .builtin .silent {}).runWith 12 p = .error e m' ∧
      e.site = some site ∧ site.line = 2 ∧ site.trace = [⟨"<main>", 3⟩] :=
  ⟨_, _, _, _, rfl, rfl, rfl, rfl, rfl⟩

end HeapScript
