import HeapScript.Proofs.Eval.Jumps
import HeapScript.Proofs.Eval.Placeless
import HeapScript.Proofs.Parser.Outcome
import HeapScript.Proofs.Program.Printing

/-!
# A `for` is the `while` that it abbreviates

A loop `for (init; cond; step) body` does what `{ init; while (cond) { body; step; } }` does,
if no `continue` of the loop stands in the body: that would leave out the step.

* `Stmt.whileOf` is the block that the `for` abbreviates. `stmt_forLoop` and `stmt_whileOf` open
  the two up to their loops, `round_whileOf` opens a round of the second.
* The two then differ in the levels that are left and in the lines of frames, so that each
  mirrors the other, round by round (`mirrored_loop`).
* `for_abbreviates_while` is what follows for the outcomes.
-/

namespace HeapScript

/-! ## Sites -/

namespace Exec

variable {α β : Type} {x : Exec α} {f : α → Exec β}

/-- Every error of the computation has a site. -/
def Sited (x : Exec α) : Prop :=
  ∀ m e m', x m = .error e m' → ∃ site, e.site = some site

theorem sited_bind (hx : x.Sited) (hf : ∀ a, (f a).Sited) : (x >>= f).Sited := by
  intro m e m' h
  rw [bind_apply] at h
  cases hr : x m with
  | ok a m₁ =>
    rw [hr] at h
    exact hf a m₁ e m' h
  | error e₁ m₁ =>
    rw [hr] at h
    cases h
    exact hx m e m' hr
  | outOfFuel =>
    rw [hr] at h
    cases h

/-- The sites that errors of the first part have stay as they are. -/
theorem located_bind (hx : x.Sited) (line : Nat) :
    located line (x >>= f) = x >>= fun a => located line (f a) := by
  funext m
  rw [bind_apply, located, bind_apply]
  cases hr : x m with
  | ok a m₁ => rfl
  | error e m₁ =>
    obtain ⟨site, hsite⟩ := hx m e m₁ hr
    simp only [hsite]
  | outOfFuel => rfl

theorem located_of_sited (hx : x.Sited) (line : Nat) : located line x = x := by
  have h := located_bind (f := pure) hx line
  rw [bind_pure] at h
  exact h.trans (bind_pure x)

end Exec

theorem sited_stmt (n : Nat) (s : Stmt) : ((evaluator n).stmt s).Sited :=
  fun _ _ _ => site_of_stmt

theorem sited_block (n : Nat) (body : List Stmt) : ((evaluator n).block body).Sited := by
  have hpure (flow : Flow) : (pure flow : Exec Flow).Sited := by
    intro m e m' h
    cases h
  induction body with
  | nil => exact hpure .normal
  | cons s r ih =>
    refine Exec.sited_bind (sited_stmt n s) fun flow => ?_
    cases flow with
    | normal => exact ih
    | _ => exact hpure _

/-! ## The two loops -/

/-- The condition of a loop, which is `true` if there is none. -/
def loopCondition (cond : Option Expr) (line : Nat) : Expr :=
  cond.getD ((Tree.bool true).lower line)

/-- The block `{ body; step; }`. -/
def Stmt.withStep (body : Stmt) (step : Option Stmt) (line : Nat) : Stmt :=
  .block (body :: step.toList) line

/-- The block `{ init; while (cond) { body; step; } }`, all on one line but for its parts. -/
def Stmt.whileOf (init : Option Stmt) (cond : Option Expr) (step : Option Stmt) (body : Stmt)
    (line : Nat) : Stmt :=
  .block (init.toList ++ [.whileLoop (loopCondition cond line) (body.withStep step line) line]) line

namespace Evaluator

/-- The first clause of a `for`, if there is one. -/
def opening (E : Evaluator Expr) : Option Stmt → Exec Unit
  | some s => do
    let _ ← E.stmt s
  | none => pure ()

theorem block_singleton (E : Evaluator Expr) (s : Stmt) : E.block [s] = E.stmt s := by
  refine Eq.trans (Exec.bind_congr_ok fun flow m m' _ => ?_) (bind_pure (E.stmt s))
  cases flow <;> rfl

end Evaluator

variable {init : Option Stmt} {cond : Option Expr} {step : Option Stmt} {body : Stmt} {line : Nat}

theorem block_cons_of_straight {s : Stmt} (hs : s.Straight) (n : Nat) (r : List Stmt) :
    (evaluator n).block (s :: r) = (do let _ ← (evaluator n).stmt s; (evaluator n).block r) := by
  refine Exec.bind_congr_ok fun flow m m' h => ?_
  rw [hs.ends h]

/-- A block notes its line and runs its statements, whose errors have sites. -/
theorem stmt_block (n : Nat) (body : List Stmt) (line : Nat) :
    (evaluator (n + 1)).stmt (.block body line) = (do
      Exec.atLine line
      (evaluator n).block body) := by
  show (do
    Exec.atLine line
    Exec.located line ((evaluator n).block body)) = _
  rw [Exec.located_of_sited (sited_block n body)]

theorem stmt_forLoop (n : Nat) :
    (evaluator (n + 1)).stmt (.forLoop init cond step body line) = (do
      Exec.atLine line
      (evaluator n).opening init
      Exec.located line (Exec.inLoop ((evaluator n).loop cond step body n))) := by
  cases init with
  | none => rfl
  | some s =>
    show (do
      Exec.atLine line
      Exec.located line (do
        let _ ← (evaluator n).stmt s
        Exec.inLoop ((evaluator n).loop cond step body n))) = _
    rw [Exec.located_bind (sited_stmt n s)]
    simp only [Evaluator.opening, bind_assoc, pure_bind]

/-- The block notes the line once more, after its first statement. -/
theorem stmt_whileOf (hinit : ∀ s ∈ init, s.Straight) (n : Nat) :
    (evaluator (n + 2)).stmt (.whileOf init cond step body line) = (do
      Exec.atLine line
      (evaluator (n + 1)).opening init
      Exec.atLine line
      Exec.located line (Exec.inLoop ((evaluator n).loop (some (loopCondition cond line)) none
        (body.withStep step line) n))) := by
  rw [Stmt.whileOf, stmt_block]
  cases init with
  | none =>
    rw [Option.toList_none, List.nil_append, Evaluator.block_singleton]
    rfl
  | some s =>
    rw [Option.toList_some, List.singleton_append, block_cons_of_straight (hinit s rfl),
      Evaluator.block_singleton]
    simp only [Evaluator.opening, bind_assoc, pure_bind]
    rfl

/-! ## Rounds -/

theorem goesOn_loopCondition (n : Nat) :
    (evaluator (n + 1)).goesOn (some (loopCondition cond line)) = (evaluator (n + 1)).goesOn cond := by
  cases cond <;> rfl

/-- If no `continue` ends the body, what is left of a round is the step after a body that ends
normally. -/
theorem block_withStep (hbody : ¬body.Exits .continueLoop) (hstep : ∀ s ∈ step, s.Straight)
    (n : Nat) (E : Evaluator Expr) :
    (evaluator n).block (body :: step.toList) >>= E.afterBody none =
      (evaluator n).stmt body >>= (evaluator n).afterBody step := by
  rw [Evaluator.block, bind_assoc]
  refine Exec.bind_congr_ok fun flow m m' h => ?_
  cases flow with
  | breakLoop | returnValue => rfl
  | continueLoop => exact absurd ((jumpsBy_stmt n body m _ m' h).resolve_left (by decide)) hbody
  | normal =>
    cases step with
    | none => rfl
    | some s =>
      rw [Option.toList_some, Evaluator.block_singleton]
      refine congrFun (Exec.bind_congr_ok fun flow m m' h => ?_) m'
      rw [(hstep s rfl).ends h]
      rfl

theorem round_whileOf (hbody : ¬body.Exits .continueLoop) (hstep : ∀ s ∈ step, s.Straight)
    (n : Nat) :
    (evaluator (n + 1)).round (some (loopCondition cond line)) none (body.withStep step line) = (do
      if ← (evaluator (n + 1)).goesOn cond then
        Exec.atLine line
        let flow ← (evaluator n).stmt body
        (evaluator n).afterBody step flow
      else return some .normal) := by
  rw [Evaluator.round, goesOn_loopCondition, Stmt.withStep, stmt_block, bind_assoc]
  simp only [block_withStep hbody hstep]

/-! ## Each mirrors the other -/

section Mirrored

variable {n k : Nat} (hnk : n ≤ k)

include hnk

theorem mirrored_opening (init : Option Stmt) :
    ((evaluator n).opening init).MirroredBy ((evaluator k).opening init) := by
  cases init with
  | none => exact Exec.mirrored_pure ()
  | some s => exact Exec.mirrored_bind (mirrored_stmt hnk s) fun _ => Exec.mirrored_pure ()

theorem mirrored_turn (step : Option Stmt) (body : Stmt) :
    ((evaluator n).stmt body >>= (evaluator n).afterBody step).MirroredBy
      ((evaluator k).stmt body >>= (evaluator k).afterBody step) :=
  Exec.mirrored_bind (mirrored_stmt hnk body) (mirrored_afterBody hnk step)

/-- A loop of which each round is mirrored is mirrored, by induction on the rounds. -/
theorem mirrored_loop {E F : Evaluator Expr} {cond' : Option Expr} {step' : Option Stmt}
    {body' : Stmt} (hround : (E.round cond step body).MirroredBy (F.round cond' step' body')) :
    Exec.MirroredBy (E.loop cond step body n) (F.loop cond' step' body' k) := by
  induction n generalizing k with
  | zero => exact Exec.mirrored_exhausted _
  | succ n ih =>
    obtain ⟨j, rfl⟩ := Nat.exists_eq_succ_of_ne_zero (Nat.ne_zero_of_lt hnk)
    rw [Evaluator.loop_succ, Evaluator.loop_succ]
    refine Exec.mirrored_bind hround fun next => ?_
    cases next with
    | none => exact ih (Nat.le_of_succ_le_succ hnk)
    | some flow => exact Exec.mirrored_pure flow

end Mirrored

variable (hinit : ∀ s ∈ init, s.Straight) (hstep : ∀ s ∈ step, s.Straight)
  (hbody : ¬body.Exits .continueLoop)

include hinit hstep hbody

/-- The block needs two more levels, for its own and for that of the block in the loop. -/
theorem forLoop_mirrored (n : Nat) :
    ((evaluator (n + 1)).stmt (.forLoop init cond step body line)).MirroredBy
      ((evaluator (n + 3)).stmt (.whileOf init cond step body line)) := by
  have hround : ((evaluator n).round cond step body).MirroredBy
      ((evaluator (n + 1)).round (some (loopCondition cond line)) none
        (body.withStep step line)) := by
    rw [round_whileOf hbody hstep]
    refine Exec.mirrored_bind (mirrored_goesOn n.le_succ cond) fun goesOn => ?_
    cases goesOn with
    | false => exact Exec.mirrored_pure _
    | true => exact (mirrored_turn n.le_refl step body).line_right line
  rw [stmt_forLoop, stmt_whileOf hinit]
  refine Exec.mirrored_bind (mirroring.line line) fun _ => ?_
  refine Exec.mirrored_bind (mirrored_opening (n.le_add_right 2) init) fun _ => ?_
  have hloop := Exec.mirrored_inLoop (mirrored_loop n.le_succ hround)
  exact (Exec.mirrored_located line hloop).line_right line

theorem whileOf_mirrored (n : Nat) :
    ((evaluator (n + 3)).stmt (.whileOf init cond step body line)).MirroredBy
      ((evaluator (n + 3)).stmt (.forLoop init cond step body line)) := by
  have hround : ((evaluator (n + 1)).round (some (loopCondition cond line)) none
      (body.withStep step line)).MirroredBy ((evaluator (n + 2)).round cond step body) := by
    rw [round_whileOf hbody hstep]
    refine Exec.mirrored_bind (mirrored_goesOn (n + 1).le_succ cond) fun goesOn => ?_
    cases goesOn with
    | false => exact Exec.mirrored_pure _
    | true => exact (mirrored_turn (n.le_add_right 2) step body).line_left line
  rw [stmt_forLoop, stmt_whileOf hinit]
  refine Exec.mirrored_bind (mirroring.line line) fun _ => ?_
  refine Exec.mirrored_bind (mirrored_opening (n + 2).le_refl init) fun _ => ?_
  have hloop := Exec.mirrored_inLoop (mirrored_loop (n + 1).le_succ hround)
  exact (Exec.mirrored_located line hloop).line_left line

omit hinit hstep hbody

/-! ## Outcomes -/

/-- The statement ends so on the machine, given enough levels. -/
def Stmt.ComesTo (s : Stmt) (m : Machine) (r : Result Flow) : Prop :=
  r ≠ .outOfFuel ∧ ∃ n, (evaluator n).stmt s m = r

theorem Stmt.ComesTo.mirrored {s t : Stmt} {m : Machine} {r : Result Flow} (h : s.ComesTo m r)
    (hm : ∀ f ∈ m.natives, f.Placeless)
    (hst : ∀ n, ∃ k l, n ≤ k ∧ ((evaluator k).stmt s).MirroredBy ((evaluator l).stmt t)) :
    ∃ r', t.ComesTo m r' ∧ r'.unplaced = r.unplaced := by
  obtain ⟨hr, n, hn⟩ := h
  obtain ⟨k, l, hnk, hmirrored⟩ := hst n
  have hk : (evaluator k).stmt s m = r :=
    ((evaluator_approximates hnk).stmt s m (by rwa [hn])).trans hn
  have hsame := hmirrored m m (.refl hm)
  rw [hk] at hsame
  obtain ⟨hends, heq⟩ := hsame.unplaced hr
  exact ⟨_, ⟨hends, l, rfl⟩, heq⟩

/-! ## Clauses that are read -/

theorem Tree.straight_toStmt (t : Tree) (line : Nat) : (t.toStmt line).Straight := by
  intro flow h
  rw [toStmt.eq_def] at h
  split at h <;> cases h

namespace Parser

variable {G : Grammar} {toks rest : List Token}

theorem straight_of_expressionStmt {n : Nat} {s : Stmt}
    (h : expressionStmt G n toks = .ok (s, rest)) : s.Straight := by
  obtain ⟨l, r, -, h⟩ := bind_apply_eq_ok.1 h
  obtain ⟨t, r', -, h⟩ := bind_apply_eq_ok.1 h
  rw [← (pure_apply_eq_ok.1 h).1]
  exact t.straight_toStmt l

theorem straight_of_simple {n : Nat} {s : Stmt} (h : simple G n toks = .ok (s, rest)) :
    s.Straight := by
  rw [simple] at h
  split at h
  · obtain ⟨l, r₁, -, h⟩ := bind_apply_eq_ok.1 h
    obtain ⟨fs, r₂, -, h⟩ := bind_apply_eq_ok.1 h
    obtain ⟨ty, r₃, -, h⟩ := bind_apply_eq_ok.1 h
    obtain ⟨name, r₄, -, h⟩ := bind_apply_eq_ok.1 h
    obtain ⟨init, r₅, -, h⟩ := bind_apply_eq_ok.1 h
    rw [← (pure_apply_eq_ok.1 h).1]
    intro flow hflow
    cases hflow
  · exact straight_of_expressionStmt h

/-- The clauses of a `for` are declarations and expressions, so no jump leaves them. -/
theorem straight_of_forRest {n line : Nat} {s : Stmt} (h : forRest G n line toks = .ok (s, rest)) :
    ∃ init cond step body, s = .forLoop init cond step body line ∧
      (∀ t ∈ init, t.Straight) ∧ ∀ t ∈ step, t.Straight := by
  obtain ⟨-, r₁, -, h⟩ := bind_apply_eq_ok.1 h
  obtain ⟨init, r₂, hinit, h⟩ := bind_apply_eq_ok.1 h
  obtain ⟨-, r₃, -, h⟩ := bind_apply_eq_ok.1 h
  obtain ⟨cond, r₄, -, h⟩ := bind_apply_eq_ok.1 h
  obtain ⟨-, r₅, -, h⟩ := bind_apply_eq_ok.1 h
  obtain ⟨step, r₆, hstep, h⟩ := bind_apply_eq_ok.1 h
  obtain ⟨-, r₇, -, h⟩ := bind_apply_eq_ok.1 h
  obtain ⟨body, r₈, -, h⟩ := bind_apply_eq_ok.1 h
  exact ⟨init, cond, step, body, (pure_apply_eq_ok.1 h).1.symm,
    fun t ht => straight_of_simple (eq_ok_of_unlessAt hinit t ht),
    fun t ht => straight_of_expressionStmt (eq_ok_of_unlessAt hstep t ht)⟩

end Parser

/-- A `for` and the block `{ init; while (cond) { body; step; } }`, on its line and with the
condition `true` if it has none, come to the same outcomes on every machine, but for the lines
that frames are at and that traces show: to the same flow, or to the same fault at the same line
with the same calls, and to the same heap, output and frames. So one of them ends if and only if
the other does. The body may end in any way but with a `continue`; from the other clauses no jump
leads out, as it does from none that is read. -/
theorem for_abbreviates_while :
    (∀ (G : Parser.Grammar) n line toks s rest, Parser.forRest G n line toks = .ok (s, rest) →
      ∃ init cond step body, s = .forLoop init cond step body line ∧
        (∀ t ∈ init, t.Straight) ∧ ∀ t ∈ step, t.Straight) ∧
    ∀ (init : Option Stmt) cond (step : Option Stmt) (body : Stmt) line (m : Machine),
      (∀ t ∈ init, t.Straight) → (∀ t ∈ step, t.Straight) → ¬body.Exits .continueLoop →
      (∀ f ∈ m.natives, f ∈ Natives.builtin ∨ f.Placeless) →
      ∀ r, (∃ r', (Stmt.forLoop init cond step body line).ComesTo m r' ∧ r'.unplaced = r) ↔
        ∃ r', (Stmt.whileOf init cond step body line).ComesTo m r' ∧ r'.unplaced = r := by
  refine ⟨fun G n line toks s rest h => Parser.straight_of_forRest h,
    fun init cond step body line m hinit hstep hbody hnatives r => ?_⟩
  have hm : ∀ f ∈ m.natives, f.Placeless := fun f hf =>
    (hnatives f hf).elim Native.placeless_of_mem_builtin id
  constructor
  · rintro ⟨r', h, rfl⟩
    exact h.mirrored hm fun n =>
      ⟨n + 1, n + 3, n.le_succ, forLoop_mirrored hinit hstep hbody n⟩
  · rintro ⟨r', h, rfl⟩
    exact h.mirrored hm fun n =>
      ⟨n + 3, n + 3, n.le_add_right 3, whileOf_mirrored hinit hstep hbody n⟩

/-! ## A loop that a break ends -/

/-- The clause `str s = ""`. -/
def emptyText : Stmt :=
  .decl {} .str "s" (some ((Tree.str "").lower 1)) 1

/-- The clause `s += "a"`. -/
def longerText : Stmt :=
  (Tree.assign .add (.ident "s") (.str "a")).toStmt 1

/-- The body `{ if (s == "aa") break; println(s); }`. -/
def printedText : Stmt :=
  .block [.ifThen ((Tree.binary .eq (.ident "s") (.str "aa")).lower 1) (.breakLoop 1) none 1,
    .expr ((Tree.call (.ident "println") [.ident "s"]).lower 1) 1] 1

/-- What `{ str s = ""; while (true) { BODY; s += "a"; } }` prints can be read off
`for (str s = ""; ; s += "a") BODY`. -/
theorem for_abbreviates_while_longerText :
    ∃ m', (Stmt.whileOf (some emptyText) none (some longerText) printedText 1).ComesTo
      (Machine.create {} .builtin {} {}) (.ok .normal m') ∧ m'.console.output = "\na\n" := by
  obtain ⟨hread, hsame⟩ := for_abbreviates_while
  have hrun : ∃ rest m', Parser.forRest (Parser.grammar 30) 30 1
        (writtenTokens [.forLoop (some emptyText) none (some longerText) printedText 1]).tail =
          .ok (.forLoop (some emptyText) none (some longerText) printedText 1, rest) ∧
      (evaluator 12).stmt (.forLoop (some emptyText) none (some longerText) printedText 1)
        (Machine.create {} .builtin {} {}) = .ok .normal m' ∧ m'.console.output = "\na\n" :=
    ⟨_, _, rfl, rfl, rfl⟩
  obtain ⟨rest, m, hparsed, hrun, hout⟩ := hrun
  obtain ⟨init, cond, step, body, heq, hinit, hstep⟩ := hread _ _ _ _ _ _ hparsed
  cases heq
  have hbody : ¬printedText.Exits .continueLoop := by
    intro h
    cases h with
    | member hs h =>
      simp only [List.mem_cons, List.not_mem_nil, or_false] at hs
      rcases hs with rfl | rfl
      · cases h with
        | thenBranch h => cases h
      · cases h
  have hcomes : (Stmt.forLoop (some emptyText) none (some longerText) printedText 1).ComesTo
      (Machine.create {} .builtin {} {}) (.ok .normal m) := ⟨by rintro ⟨⟩, 12, hrun⟩
  obtain ⟨r, hcomes, hr⟩ := (hsame _ _ _ _ 1 (Machine.create {} .builtin {} {}) hinit hstep hbody
    (fun _ => .inl) (.ok .normal m.unplaced)).1 ⟨_, hcomes, rfl⟩
  cases r with
  | ok flow m' =>
    obtain ⟨rfl, hm⟩ := Result.ok.inj hr
    have hconsole : m'.console = m.console := by
      show m'.unplaced.console = m.unplaced.console
      rw [hm]
    exact ⟨m', hcomes, hconsole ▸ hout⟩
  | error e m' => cases hr
  | outOfFuel => cases hr

end HeapScript
