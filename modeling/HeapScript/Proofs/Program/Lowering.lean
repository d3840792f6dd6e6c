import HeapScript.Program.Tree
import HeapScript.Proofs.Program.Occurs

/-!
# What trees are lowered to

* `Tree.code` is the sequence of instructions that a lowered tree runs
  (`flatten_lower`), given by recursion on the tree.
* `suffices?_code`: the code of a tree needs no operands from before it and leaves
  one.
* `Tree.has_lower`: what occurs in a lowered tree is a lowered subtree, or occurs in the
  body of a function literal. `Tree.Bodies` says that a property holds of these bodies.
* `Stmt.Composes`: the properties of statements that follow from those of their parts.
-/

namespace HeapScript

/-- The expression is a lowered tree. -/
def Expr.IsLowered (e : Expr) : Prop :=
  ∃ (t : Tree) (line : Nat), e = t.lower line

/-- Every expression in the statement is a lowered tree. -/
def Stmt.IsLowered (s : Stmt) : Prop :=
  s.Every Expr.IsLowered

namespace Tree

/-! ## Code -/

/-- Induction on the operands of a tree. Nothing is assumed of its elements,
arguments and indices, which are expressions of their own. -/
@[elab_as_elim]
theorem operandRec {motive : Tree → Prop} (num : ∀ value, motive (num value))
    (str : ∀ value, motive (str value)) (bool : ∀ value, motive (bool value))
    (ident : ∀ name, motive (ident name)) (function : ∀ d, motive (function d))
    (array : ∀ elements, motive (array elements))
    (paren : ∀ inner, motive inner → motive (paren inner))
    (binary : ∀ op left right, motive left → motive right → motive (binary op left right))
    (unary : ∀ op operand, motive operand → motive (unary op operand))
    (assign : ∀ op target value, motive target → motive value → motive (assign op target value))
    (member : ∀ object name, motive object → motive (member object name))
    (call : ∀ callee args, motive callee → motive (call callee args))
    (index : ∀ object idx, motive object → motive (index object idx)) (t : Tree) : motive t :=
  @Tree.rec motive (fun _ => True) num str bool ident function (fun elements _ => array elements)
    paren binary unary assign member (fun callee args h _ => call callee args h)
    (fun object idx h _ => index object idx h) trivial (fun _ _ _ _ => trivial) t

/-- The instructions of a tree on the given line. -/
def code (line : Nat) : Tree → List Instr
  | num value => [.num value]
  | str value => [.str value]
  | bool value => [.bool value]
  | ident name => [.ident name]
  | function definition => [.function definition]
  | array elements => [.array (elements.map (lower line))]
  | paren inner => inner.code line
  | binary op left right => left.code line ++ (right.code line ++ [.binary op])
  | unary op operand => operand.code line ++ [.unary op]
  | assign op target value => target.code line ++ (value.code line ++ [.assign op])
  | member object name => object.code line ++ [.ident name, .member]
  | call callee args => callee.code line ++ [.call (args.map (lower line))]
  | index object idx => object.code line ++ [.index (idx.lower line)]

theorem lowerAll_eq_map (line : Nat) (ts : List Tree) : lowerAll line ts = ts.map (lower line) := by
  induction ts with
  | nil => rfl
  | cons t ts ih =>
    rw [lowerAll, ih]
    rfl

/-- Splicing the groups of a lowered tree into place gives its code. -/
theorem flattenItems_itemsThen (line : Nat) (t : Tree) (rest : List Item) (more : List Instr) :
    flattenItems (itemsThen line t rest) more = t.code line ++ flattenItems rest more := by
  induction t using operandRec generalizing rest more with
  | paren inner ih => simp [itemsThen, code, flattenItems, Expr.flattenThen, ih]
  | binary _ left right ihl ihr | assign _ left right ihl ihr =>
    simp [itemsThen, code, flattenItems, ihl, ihr]
  | unary _ operand ih | member operand _ ih | call operand _ ih | index operand _ ih =>
    simp [itemsThen, code, flattenItems, lowerAll_eq_map, lower, ih]
  | _ => simp [itemsThen, code, flattenItems, lowerAll_eq_map]

theorem flatten_lower (line : Nat) (t : Tree) : (t.lower line).flatten = t.code line := by
  show flattenItems (itemsThen line t []) [] = _
  rw [flattenItems_itemsThen]
  exact List.append_nil _

theorem code_ne_nil (line : Nat) (t : Tree) : t.code line ≠ [] := by
  induction t using operandRec with
  | paren inner ih => exact ih
  | _ => simp [code]

theorem lower_isEmpty (line : Nat) (t : Tree) : (t.lower line).isEmpty = false := by
  rw [Expr.isEmpty, List.isEmpty_eq_false_iff]
  intro h
  have hitems : itemsThen line t [] = [] := h
  have hcode := flattenItems_itemsThen line t [] []
  rw [hitems] at hcode
  exact t.code_ne_nil line (List.append_eq_nil_iff.1 hcode.symm).1

/-- Behind the code of a tree there is one operand more than before it. -/
theorem suffices?_code (line : Nat) (t : Tree) (n : Nat) (rest : List Instr) :
    suffices? n (t.code line ++ rest) = suffices? (n + 1) rest := by
  induction t using operandRec generalizing n rest with
  | paren inner ih => exact ih n rest
  | binary _ left right ihl ihr | assign _ left right ihl ihr =>
    rw [code, List.append_assoc, ihl, List.append_assoc, ihr]
    simp [suffices?, Instr.operands]
  | unary _ operand ih | member operand _ ih | call operand _ ih | index operand _ ih =>
    rw [code, List.append_assoc, ih]
    simp [suffices?, Instr.operands]
  | _ => simp [code, suffices?, Instr.operands]

/-! ## Subtrees -/

/-- The trees that a tree is made of. -/
def parts : Tree → List Tree
  | array elements => elements
  | paren inner => [inner]
  | binary _ left right => [left, right]
  | unary _ operand => [operand]
  | assign _ target value => [target, value]
  | member object _ => [object]
  | call callee args => callee :: args
  | index object idx => [object, idx]
  | num _ | str _ | bool _ | ident _ | function _ => []

/-- The second tree occurs in the first. -/
inductive Has : Tree → Tree → Prop
  | self (t : Tree) : Has t t
  | part {t u x : Tree} : u ∈ t.parts → u.Has x → Has t x

theorem Has.trans {t u x : Tree} (h : t.Has u) (hx : u.Has x) : t.Has x := by
  induction h with
  | self t => exact hx
  | part hu _ ih => exact .part hu (ih hx)

/-- The property holds of the body of every function literal in the tree. -/
def Bodies (S : Stmt → Prop) (t : Tree) : Prop :=
  ∀ d, t.Has (function d) → S d.body

section Bodies

variable {S : Stmt → Prop} {t u : Tree}

theorem bodies_iff :
    t.Bodies S ↔ (∀ d, t = function d → S d.body) ∧ ∀ u ∈ t.parts, u.Bodies S := by
  refine ⟨fun h => ⟨?_, fun u hu d hd => h d (.part hu hd)⟩, fun ⟨hself, hparts⟩ d hd => ?_⟩
  · rintro d rfl
    exact h d (.self _)
  · cases hd with
    | self => exact hself d rfl
    | part hu hd => exact hparts _ hu d hd

theorem Bodies.has (h : t.Bodies S) (hu : t.Has u) : u.Bodies S := fun d hd => h d (hu.trans hd)

/-- A tree that is no function literal is as its parts are. -/
theorem bodies_of_parts (hf : ∀ d, t ≠ function d) (h : ∀ u ∈ t.parts, u.Bodies S) :
    t.Bodies S :=
  bodies_iff.2 ⟨fun d hd => absurd hd (hf d), h⟩

theorem bodies_function {d : FunctionDef} (hd : S d.body) : (function d).Bodies S := by
  refine bodies_iff.2 ⟨?_, by simp [parts]⟩
  rintro _ ⟨⟩
  exact hd

end Bodies

/-! ## Expressions in a lowered tree -/

/-- A group of a lowered tree is a lowered subtree. -/
theorem group_mem_itemsThen {line : Nat} {g : Expr} {t : Tree} {rest : List Item}
    (h : .group g ∈ itemsThen line t rest) :
    .group g ∈ rest ∨ ∃ u, t.Has u ∧ g = u.lower line := by
  induction t using operandRec generalizing rest with
  | paren inner ih =>
    rw [itemsThen] at h
    rcases List.mem_cons.1 h with h | h
    · cases h
      exact .inr ⟨inner, .part (by simp [parts]) (.self _), rfl⟩
    · exact .inl h
  | binary _ left right ihl ihr | assign _ left right ihl ihr =>
    rw [itemsThen] at h
    rcases ihl h with h | ⟨u, hu, rfl⟩
    · rcases ihr h with h | ⟨u, hu, rfl⟩
      · exact .inl (by simpa using h)
      · exact .inr ⟨u, .part (by simp [parts]) hu, rfl⟩
    · exact .inr ⟨u, .part (by simp [parts]) hu, rfl⟩
  | unary _ operand ih | member operand _ ih | call operand _ ih | index operand _ ih =>
    rw [itemsThen] at h
    rcases ih h with h | ⟨u, hu, rfl⟩
    · exact .inl (by simpa using h)
    · exact .inr ⟨u, .part (by simp [parts]) hu, rfl⟩
  | _ => exact .inl (by simpa [itemsThen] using h)

/-- An expression attached to an instruction of a tree is a lowered subtree. -/
theorem attached_mem_code {line : Nat} {i : Instr} {a : Expr} {t : Tree} (hi : i ∈ t.code line)
    (ha : a ∈ i.exprs) : ∃ u, t.Has u ∧ a = u.lower line := by
  have hpart : ∀ {t u : Tree}, u ∈ t.parts → (∃ x, u.Has x ∧ a = x.lower line) →
      ∃ x, t.Has x ∧ a = x.lower line := fun hu ⟨x, hx, hax⟩ => ⟨x, .part hu hx, hax⟩
  induction t using operandRec with
  | array elements =>
    rw [List.mem_singleton.1 hi] at ha
    obtain ⟨u, hu, rfl⟩ := List.mem_map.1 ha
    exact ⟨u, .part hu (.self u), rfl⟩
  | paren inner ih => exact hpart (by simp [parts]) (ih hi)
  | binary _ left right ihl ihr | assign _ left right ihl ihr =>
    rcases List.mem_append.1 hi with hi | hi
    · exact hpart (by simp [parts]) (ihl hi)
    · rcases List.mem_append.1 hi with hi | hi
      · exact hpart (by simp [parts]) (ihr hi)
      · rw [List.mem_singleton.1 hi] at ha
        cases ha
  | unary _ operand ih =>
    rcases List.mem_append.1 hi with hi | hi
    · exact hpart (by simp [parts]) (ih hi)
    · rw [List.mem_singleton.1 hi] at ha
      cases ha
  | member object name ih =>
    rcases List.mem_append.1 hi with hi | hi
    · exact hpart (by simp [parts]) (ih hi)
    · simp only [List.mem_cons, List.not_mem_nil, or_false] at hi
      rcases hi with rfl | rfl <;> cases ha
  | call callee args ih =>
    rcases List.mem_append.1 hi with hi | hi
    · exact hpart (by simp [parts]) (ih hi)
    · rw [List.mem_singleton.1 hi] at ha
      obtain ⟨u, hu, rfl⟩ := List.mem_map.1 ha
      exact ⟨u, .part (List.mem_cons_of_mem _ hu) (.self u), rfl⟩
  | index object idx ih =>
    rcases List.mem_append.1 hi with hi | hi
    · exact hpart (by simp [parts]) (ih hi)
    · rw [List.mem_singleton.1 hi] at ha
      cases List.mem_singleton.1 ha
      exact ⟨idx, .part (by simp [parts]) (.self idx), rfl⟩
  | _ =>
    rw [List.mem_singleton.1 hi] at ha
    cases ha

/-- A function literal in the code of a tree is one in the tree. -/
theorem function_mem_code {line : Nat} {d : FunctionDef} {t : Tree}
    (h : .function d ∈ t.code line) : t.Has (function d) := by
  induction t using operandRec with
  | function d' =>
    cases List.mem_singleton.1 h
    exact .self _
  | paren inner ih => exact .part (by simp [parts]) (ih h)
  | binary _ left right ihl ihr | assign _ left right ihl ihr =>
    simp only [code, List.mem_append, List.mem_singleton, reduceCtorEq, or_false] at h
    rcases h with h | h
    · exact .part (by simp [parts]) (ihl h)
    · exact .part (by simp [parts]) (ihr h)
  | unary _ operand ih | member operand _ ih | call operand _ ih | index operand _ ih =>
    exact .part (by simp [parts]) (ih (by simpa [code] using h))
  | _ => simp [code] at h

/-- An expression in a lowered tree is a lowered subtree or occurs in the body of a
function literal, by induction on where it occurs. -/
theorem has_lower {e x : Expr} : e.Has x → ∀ {t : Tree} {line : Nat}, e = t.lower line →
    (∃ u, t.Has u ∧ x = u.lower line) ∨ ∃ d, t.Has (function d) ∧ d.body.Has x
  | .self _, t, line, he => .inl ⟨t, .self t, he⟩
  | .group hg hx, t, line, he => by
    rw [he] at hg
    obtain hnil | ⟨u, hu, hgu⟩ := group_mem_itemsThen hg
    · cases hnil
    · exact (has_lower hx hgu).imp (fun ⟨v, hv, hxv⟩ => ⟨v, hu.trans hv, hxv⟩)
        fun ⟨d, hd, hxd⟩ => ⟨d, hu.trans hd, hxd⟩
  | .attached hi ha hx, t, line, he => by
    rw [he, flatten_lower] at hi
    obtain ⟨u, hu, hau⟩ := attached_mem_code hi ha
    exact (has_lower hx hau).imp (fun ⟨v, hv, hxv⟩ => ⟨v, hu.trans hv, hxv⟩)
      fun ⟨d, hd, hxd⟩ => ⟨d, hu.trans hd, hxd⟩
  | .body hd hx, t, line, he => by
    rw [he, flatten_lower] at hd
    exact .inr ⟨_, function_mem_code hd, hx⟩

theorem every_lower {t : Tree} (ht : t.Bodies Stmt.IsLowered) (line : Nat) :
    (t.lower line).Every Expr.IsLowered := by
  intro x hx
  obtain ⟨u, -, rfl⟩ | ⟨d, hd, hx⟩ := has_lower hx rfl
  · exact ⟨u, line, rfl⟩
  · exact ht d hd x hx

/-! ## Trees as statements -/

@[simp] theorem line_toStmt (line : Nat) (t : Tree) : (t.toStmt line).line = line := by
  rw [toStmt.eq_def]
  split <;> rfl

@[simp] theorem parts_toStmt (line : Nat) (t : Tree) : (t.toStmt line).parts = [] := by
  rw [toStmt.eq_def]
  split <;> rfl

/-- The expressions of a tree that is made a statement are lowered subtrees. -/
theorem exprs_toStmt {line : Nat} {t : Tree} {e : Expr} (h : e ∈ (t.toStmt line).exprs) :
    ∃ u, t.Has u ∧ e = u.lower line := by
  rw [toStmt.eq_def] at h
  split at h
  · rename_i op object name value
    have hobject : (assign op (member object name) value).Has object :=
      .part (u := member object name) (by simp [parts]) (.part (by simp [parts]) (.self object))
    have hvalue : (assign op (member object name) value).Has value :=
      .part (by simp [parts]) (.self value)
    simp only [Stmt.exprs, List.mem_cons, List.not_mem_nil, or_false] at h
    rcases h with rfl | rfl
    · exact ⟨object, hobject, rfl⟩
    · exact ⟨value, hvalue, rfl⟩
  · rename_i op object idx value
    have htarget {u : Tree} (hu : u ∈ [object, idx]) :
        (assign op (index object idx) value).Has u :=
      .part (u := index object idx) (by simp [parts]) (.part hu (.self u))
    have hvalue : (assign op (index object idx) value).Has value :=
      .part (by simp [parts]) (.self value)
    simp only [Stmt.exprs, List.mem_cons, List.not_mem_nil, or_false] at h
    rcases h with rfl | rfl | rfl
    · exact ⟨object, htarget (by simp), rfl⟩
    · exact ⟨idx, htarget (by simp), rfl⟩
    · exact ⟨value, hvalue, rfl⟩
  · cases List.mem_singleton.1 h
    exact ⟨_, .self _, rfl⟩

end Tree

/-! ## Lowered expressions -/

theorem Expr.IsLowered.suffices? {e : Expr} (h : e.IsLowered) :
    HeapScript.suffices? 0 e.flatten = true := by
  obtain ⟨t, line, rfl⟩ := h
  have hcode := t.suffices?_code line 0 []
  rw [List.append_nil] at hcode
  rw [Tree.flatten_lower, hcode]
  rfl

/-! ## Statements of lowered trees -/

/-- The expression is a lowered tree, and the property holds of the bodies of the function
literals in it. -/
def Expr.IsLoweredOf (S : Stmt → Prop) (e : Expr) : Prop :=
  ∃ (t : Tree) (line : Nat), e = t.lower line ∧ t.Bodies S

/-- The property holds of a statement of lowered trees on a line `Q` if it holds of what
the statement is made of. -/
def Stmt.Composes (Q : Nat → Prop) (S : Stmt → Prop) : Prop :=
  ∀ s : Stmt, Q s.line → (∀ e ∈ s.exprs, e.IsLoweredOf S) → (∀ t ∈ s.parts, S t) → S s

theorem Stmt.composes_isLowered : Composes (fun _ => True) IsLowered := by
  refine fun s _ he hp => every_iff.2 ⟨fun e hmem => ?_, hp⟩
  obtain ⟨t, line, rfl, ht⟩ := he e hmem
  exact Tree.every_lower ht line

/-- All statements in a statement have a line `Q`. -/
theorem Stmt.composes_lines (Q : Nat → Prop) :
    Composes Q fun s => ∀ t, s.Contains t → Q t.line := by
  intro s hline he hp t ht
  cases ht with
  | self => exact hline
  | part hu ht => exact hp _ hu t ht
  | body hx hd ht =>
    cases hx with
    | part hu hx => exact hp _ hu t (.body hx hd ht)
    | own hmem hx =>
      obtain ⟨tree, line, rfl, hbodies⟩ := he _ hmem
      obtain ⟨u, hu, rfl⟩ | ⟨d, hd', hx⟩ := Tree.has_lower hx rfl
      · rw [Tree.flatten_lower] at hd
        exact hbodies _ (hu.trans (Tree.function_mem_code hd)) t ht
      · exact hbodies d hd' t (.body hx hd ht)

end HeapScript
