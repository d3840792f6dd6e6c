import HeapScript.Proofs.Eval.Reachable

/-!
# What a tree means

An expression can be evaluated by recursion on its tree, without a stack of
operands. Running the lowered tree on the stack does the same, whatever is on the
stack before and whatever instructions come after.

* `Evaluator.meaning` evaluates a tree, given how the trees of its elements,
  arguments and indices are evaluated; `treeEvaluator` ties the levels together.
* `Evaluator.comap` evaluates one kind of expressions through another. What calls
  do with their arguments does not depend on the kind (`comap_call`).
* `instrs_code` is the simulation, `treeEvaluator_eq` what follows for all levels.
* `lowering_preserves_meaning`: this, and what it means for parsed programs, in which
  every expression leaves one value and no operand is ever missing.
-/

namespace HeapScript

namespace Evaluator

/-- The value of a tree: the operands from left to right, then the operator. Names
stay placeholders until an operator resolves them. -/
def meaning (F : Evaluator Tree) : Tree → Exec Value
  | .num value => pure (.num value)
  | .str value => pure (.str value)
  | .bool value => pure (.bool value)
  | .ident name => pure (.ident name)
  | .function definition => pure (.function { definition })
  | .array elements => do
    let items ← Exec.each F.value elements
    Exec.check fun _ => arrayOf items
  | .paren inner => F.meaning inner
  | .binary op left right => do
    let left ← F.meaning left
    let right ← F.meaning right
    Exec.check fun m => do
      let a ← m.resolve left
      let b ← m.resolve right
      Value.binary op a b
  | .unary op operand => do
    let operand ← F.meaning operand
    Exec.check fun m => do Value.unary op (← m.resolve operand)
  | .assign op target value => do
    let target ← F.meaning target
    let value ← F.meaning value
    match target with
    | .ident name => do
      let value ← Exec.check fun m => m.resolve value
      Exec.assign (.var name) op value
    | _ => Exec.fail (.notAssignable target)
  | .member object name => do
    let object ← F.meaning object
    Exec.check fun m => m.member object (.ident name)
  | .call callee args => do
    let callee ← F.meaning callee
    F.call callee args
  | .index object idx => do
    let target ← F.meaning object
    let index ← F.value idx
    Exec.check fun m => m.element target index

/-! ## Expressions of another kind -/

variable {ε δ : Type} (E : Evaluator ε) (f : δ → ε)

/-- Evaluates expressions of one kind as those of another that they stand for. -/
def comap : Evaluator δ :=
  ⟨E.stmt, fun t => E.expr (f t)⟩

theorem comap_value (t : δ) : (E.comap f).value t = E.value (f t) := rfl

theorem comap_hinted (byRef : Bool) (t : δ) : (E.comap f).hinted byRef t = E.hinted byRef (f t) :=
  rfl

theorem each_map {α : Type} (g : ε → Exec α) (ts : List δ) :
    Exec.each g (ts.map f) = Exec.each (fun t => g (f t)) ts := by
  induction ts with
  | nil => rfl
  | cons t ts ih => rw [List.map_cons, Exec.each, Exec.each, ih]

theorem comap_slotValues (use : String → RefUse) (ps : List Param) (ts : List δ) :
    (E.comap f).slotValues use ps ts = E.slotValues use ps (ts.map f) := by
  induction ps generalizing ts with
  | nil => cases ts <;> rfl
  | cons p ps ih =>
    cases ts with
    | nil => rfl
    | cons t ts => simp only [List.map_cons, slotValues, ih, comap_hinted]

theorem comap_callNative (g : Native) (ts : List δ) :
    (E.comap f).callNative g ts = E.callNative g (ts.map f) := by
  simp only [callNative, List.length_map, each_map]
  rfl

theorem comap_callFunction (g : FunctionValue) (invokedAs : Option String) (ts : List δ) :
    (E.comap f).callFunction g invokedAs ts = E.callFunction g invokedAs (ts.map f) := by
  simp only [callFunction, List.length_map, comap_slotValues]
  rfl

theorem comap_construct (c : ClassDef) (ts : List δ) :
    (E.comap f).construct c ts = E.construct c (ts.map f) := by
  simp only [construct, List.length_map, comap_slotValues]

theorem comap_fill (template : String) (ts : List δ) :
    (E.comap f).fill template ts = E.fill template (ts.map f) := by
  simp only [fill, each_map, comap_value]

theorem comap_call (callee : Value) (ts : List δ) :
    (E.comap f).call callee ts = E.call callee (ts.map f) := by
  simp only [call, comap_callNative, comap_callFunction, comap_construct, comap_fill]

/-! ## The simulation -/

/-- No argument of a lowered call is empty, so all of them are evaluated. -/
theorem arguments_lower (line : Nat) (ts : List Tree) :
    arguments (ts.map (Tree.lower line)) = ts.map (Tree.lower line) := by
  rw [arguments, List.filter_eq_self]
  intro e he
  obtain ⟨t, -, rfl⟩ := List.mem_map.1 he
  rw [t.lower_isEmpty]
  rfl

theorem instrs_cons (E : Evaluator Expr) (i : Instr) (rest : List Instr) (stack : List Value) :
    E.instrs (i :: rest) stack = E.instr i stack >>= E.instrs rest := rfl

/-- The code of a tree, on any stack and before any other instructions, puts the
value of the tree on top of the stack. -/
theorem instrs_code (E : Evaluator Expr) (line : Nat) (t : Tree) (rest : List Instr)
    (stack : List Value) :
    E.instrs (t.code line ++ rest) stack =
      (E.comap (Tree.lower line)).meaning t >>= fun v => E.instrs rest (v :: stack) := by
  induction t using Tree.operandRec generalizing rest stack with
  | array elements =>
    simp only [Tree.code, List.cons_append, List.nil_append, instrs_cons, instr, each_map, meaning,
      bind_assoc, pure_bind]
    rfl
  | paren inner ih => exact ih rest stack
  | binary op left right ihl ihr =>
    simp only [Tree.code, List.append_assoc, ihl, ihr, List.cons_append, List.nil_append,
      instrs_cons, instr, meaning, bind_assoc, pure_bind]
  | unary op operand ih =>
    simp only [Tree.code, List.append_assoc, ih, List.cons_append, List.nil_append, instrs_cons,
      instr, meaning, bind_assoc, pure_bind]
  | assign op target value iht ihv =>
    simp only [Tree.code, List.append_assoc, iht, ihv, List.cons_append, List.nil_append,
      instrs_cons, instr, meaning, bind_assoc]
    refine bind_congr fun target => bind_congr fun value => ?_
    cases target with
    | ident name => simp only [bind_assoc, pure_bind]
    | _ => rfl
  | member object name ih =>
    simp only [Tree.code, List.append_assoc, ih, List.cons_append, List.nil_append, instrs_cons,
      instr, meaning, bind_assoc, pure_bind]
  | call callee args ih =>
    simp only [Tree.code, List.append_assoc, ih, List.cons_append, List.nil_append, instrs_cons,
      instr, meaning, bind_assoc, pure_bind, arguments_lower, comap_call]
  | index object idx ih =>
    simp only [Tree.code, List.append_assoc, ih, List.cons_append, List.nil_append, instrs_cons,
      instr, meaning, bind_assoc, pure_bind, comap_value]
  | _ => rfl

/-- A lowered tree leaves one value, that of the tree. -/
theorem instrs_lower (E : Evaluator Expr) (line : Nat) (t : Tree) (stack : List Value) :
    E.instrs (t.lower line).flatten stack =
      (E.comap (Tree.lower line)).meaning t >>= fun v => pure (v :: stack) := by
  have h := E.instrs_code line t [] stack
  rw [List.append_nil] at h
  rw [Tree.flatten_lower, h]
  rfl

theorem expression_lower (E : Evaluator Expr) (line : Nat) (t : Tree) :
    E.expression (t.lower line) = (E.comap (Tree.lower line)).meaning t := by
  rw [expression, instrs_lower, bind_assoc]
  simp only [pure_bind, List.headD_cons]
  exact bind_pure _

end Evaluator

/-- The evaluator of trees of so many nested levels. -/
def treeEvaluator : Nat → Evaluator Tree
  | 0 => ⟨(evaluator 0).stmt, fun _ => Exec.exhausted⟩
  | n + 1 => ⟨(evaluator (n + 1)).stmt, fun t m => (treeEvaluator n).meaning t m⟩

/-- Trees mean what they are lowered to. -/
theorem treeEvaluator_eq (n line : Nat) :
    treeEvaluator n = (evaluator n).comap (Tree.lower line) := by
  induction n with
  | zero => rfl
  | succ n ih =>
    rw [treeEvaluator, ih]
    show _ = Evaluator.mk _ fun t : Tree => (evaluator n).expression (t.lower line)
    simp only [Evaluator.expression_lower]

theorem expr_lower (n line : Nat) (t : Tree) :
    (evaluator n).expr (t.lower line) = (treeEvaluator n).expr t := by
  rw [treeEvaluator_eq n line]
  rfl

/-- Whatever evaluates it, a lowered tree that succeeds leaves one value on the
stack. -/
theorem stack_of_instrs_lower {E : Evaluator Expr} {line : Nat} {t : Tree} {m m' : Machine}
    {stack stack' : List Value}
    (h : E.instrs (t.lower line).flatten stack m = .ok stack' m') : ∃ v, stack' = v :: stack := by
  rw [E.instrs_lower, Exec.bind_apply] at h
  split at h
  · cases h
    exact ⟨_, rfl⟩
  · cases h
  · cases h

/-- A lowered tree runs on the stack, whatever lies on it, as the tree is evaluated
without one, to the same value or error and with the same machine. Every expression
of a parsed program is such a tree: it is not empty and leaves one value. And no run
of a parsed program ends for want of an operand. -/
theorem lowering_preserves_meaning :
    (∀ (n line : Nat) (t : Tree) (stack : List Value) (m : Machine),
      (evaluator n).expr (t.lower line) m = (treeEvaluator n).expr t m ∧
      (evaluator n).instrs (t.lower line).flatten stack m =
        ((treeEvaluator n).meaning t >>= fun v => pure (v :: stack)) m) ∧
    (∀ (name : String) (tokens : List Token) (p : Program), parse name tokens = .ok p →
      ∀ s ∈ p.statements, ∀ e, s.Has e →
        e.isEmpty = false ∧ (∃ (t : Tree) (line : Nat), e = t.lower line) ∧
        ∀ (E : Evaluator Expr) (stack stack' : List Value) (m m' : Machine),
          E.instrs e.flatten stack m = .ok stack' m' → ∃ v, stack' = v :: stack) ∧
    ∀ (m : Machine) (name : String) (tokens : List Token) (p : Program) (fuel : Nat)
      (e : RuntimeError) (m' : Machine), m.Reachable → parse name tokens = .ok p →
      m.runWith fuel p = .error e m' → e.fault ≠ .missingOperand := by
  refine ⟨fun n line t stack m => ⟨?_, ?_⟩, ?_, ?_⟩
  · rw [expr_lower]
  · rw [Evaluator.instrs_lower, treeEvaluator_eq n line]
  · intro name tokens p hp s hs e he
    obtain ⟨t, line, rfl⟩ := isLowered_of_parse hp s hs e he
    exact ⟨t.lower_isEmpty line, ⟨t, line, rfl⟩, fun _ _ _ _ _ => stack_of_instrs_lower⟩
  · intro m name tokens p fuel e m' hm hp hrun
    have hafter := hm.sound.after_runWith hp fuel
    rw [hrun] at hafter
    exact hafter.2

/-- A program whose last statement is the expression `d`, which is not defined. -/
theorem lowering_preserves_meaning_boxes :
    ∃ p s x e m, parse "boxes" boxTokens = .ok p ∧ s ∈ p.statements ∧ s.Has x ∧
      x.isEmpty = false ∧ (Machine.create {} .builtin .silent {}).runWith 12 p = .error e m ∧
      e.fault ≠ .missingOperand := by
  have hrun : ∃ p e m, parse "boxes" boxTokens = .ok p ∧
      p.statements[3]? = some (.expr (Tree.lower 1 (.ident "d")) 1) ∧
      (Machine.create {} .builtin .silent {}).runWith 12 p = .error e m :=
    ⟨_, _, _, rfl, rfl, rfl⟩
  obtain ⟨p, e, m, hp, hs, hrun⟩ := hrun
  obtain ⟨-, hlowered, hmissing⟩ := lowering_preserves_meaning
  have hs := List.mem_of_getElem? hs
  have hx : (Stmt.expr (Tree.lower 1 (.ident "d")) 1).Has (Tree.lower 1 (.ident "d")) :=
    .own (List.mem_singleton.2 rfl) (.self _)
  exact ⟨p, _, _, e, m, hp, hs, hx, (hlowered _ _ p hp _ hs _ hx).1, hrun,
    hmissing _ _ _ p 12 e m (.create {} .silent {}) hp hrun⟩

end HeapScript
