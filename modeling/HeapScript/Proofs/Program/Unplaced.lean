import HeapScript.Proofs.Program.Printing

/-!
# Programs up to positions

* `Stmt.unplaced` is a statement with every line in it, at any depth, replaced by zero.
  Two statements are the same up to positions if these are equal.
* `Tree.mapFunctions` changes the function literals of a tree. Lowering a tree and
  taking the positions away can be done in either order (`unplaced_lower`).
-/

namespace HeapScript

mutual

/-- The statement without its positions. -/
def Stmt.unplaced : Stmt → Stmt
  | .expr e _ => .expr e.unplaced 0
  | .decl flags ty name init _ => .decl flags ty name (unplacedExpr? init) 0
  | .classDef c _ => .classDef { c with line := 0 } 0
  | .ifThen cond thenBranch elseBranch _ =>
    .ifThen cond.unplaced thenBranch.unplaced (unplacedStmt? elseBranch) 0
  | .whileLoop cond body _ => .whileLoop cond.unplaced body.unplaced 0
  | .forLoop init cond step body _ =>
    .forLoop (unplacedStmt? init) (unplacedExpr? cond) (unplacedStmt? step) body.unplaced 0
  | .block body _ => .block (unplacedStmts body) 0
  | .breakLoop _ => .breakLoop 0
  | .continueLoop _ => .continueLoop 0
  | .returnValue value _ => .returnValue (unplacedExpr? value) 0
  | .setMember target member op value _ => .setMember target.unplaced member op value.unplaced 0
  | .setIndex target index op value _ =>
    .setIndex target.unplaced index.unplaced op value.unplaced 0
  | .nop _ => .nop 0

/-- A statement that may be missing, without its positions. -/
def unplacedStmt? : Option Stmt → Option Stmt
  | none => none
  | some s => some s.unplaced

/-- The statements without their positions. -/
def unplacedStmts : List Stmt → List Stmt
  | [] => []
  | s :: r => s.unplaced :: unplacedStmts r

/-- An expression that may be missing, without its positions. -/
def unplacedExpr? : Option Expr → Option Expr
  | none => none
  | some e => some e.unplaced

/-- The expression without its positions. -/
def Expr.unplaced : Expr → Expr
  | ⟨items, _⟩ => ⟨unplacedItems items, 0⟩

/-- The items without their positions. -/
def unplacedItems : List Item → List Item
  | [] => []
  | .instr i :: r => .instr i.unplaced :: unplacedItems r
  | .group e :: r => .group e.unplaced :: unplacedItems r

/-- The instruction without its positions. -/
def Instr.unplaced : Instr → Instr
  | .function d => .function d.unplaced
  | .array elements => .array (unplacedExprs elements)
  | .call args => .call (unplacedExprs args)
  | .index e => .index e.unplaced
  | i => i

/-- The expressions without their positions. -/
def unplacedExprs : List Expr → List Expr
  | [] => []
  | e :: r => e.unplaced :: unplacedExprs r

/-- The function without its positions. -/
def FunctionDef.unplaced : FunctionDef → FunctionDef
  | ⟨params, returnType, returnsRef, captures, body, _⟩ =>
    ⟨params, returnType, returnsRef, captures, body.unplaced, 0⟩

end

theorem unplacedStmts_eq_map (body : List Stmt) : unplacedStmts body = body.map Stmt.unplaced := by
  induction body with
  | nil => rfl
  | cons s r ih => rw [unplacedStmts, ih, List.map_cons]

/-! ## Trees -/

namespace Tree

mutual

/-- The tree with its function literals changed. -/
def mapFunctions (f : FunctionDef → FunctionDef) : Tree → Tree
  | function d => function (f d)
  | array elements => array (mapFunctionsAll f elements)
  | paren inner => paren (inner.mapFunctions f)
  | binary op left right => binary op (left.mapFunctions f) (right.mapFunctions f)
  | unary op operand => unary op (operand.mapFunctions f)
  | assign op target value => assign op (target.mapFunctions f) (value.mapFunctions f)
  | member object name => member (object.mapFunctions f) name
  | call callee args => call (callee.mapFunctions f) (mapFunctionsAll f args)
  | index object idx => index (object.mapFunctions f) (idx.mapFunctions f)
  | t => t

/-- The trees with their function literals changed. -/
def mapFunctionsAll (f : FunctionDef → FunctionDef) : List Tree → List Tree
  | [] => []
  | t :: ts => t.mapFunctions f :: mapFunctionsAll f ts

end

variable {f : FunctionDef → FunctionDef}

theorem mapFunctionsAll_eq_map (ts : List Tree) :
    mapFunctionsAll f ts = ts.map (mapFunctions f) := by
  induction ts with
  | nil => rfl
  | cons t ts ih => rw [mapFunctionsAll, ih, List.map_cons]

@[simp] theorem level_mapFunctions (t : Tree) : (t.mapFunctions f).level = t.level := by
  cases t <;> simp [mapFunctions, level]

theorem fits_mapFunctions_iff {t : Tree} : (t.mapFunctions f).Fits ↔ t.Fits := by
  cases t <;> simp [mapFunctions, Fits]

theorem parts_mapFunctions (t : Tree) :
    (t.mapFunctions f).parts = t.parts.map (mapFunctions f) := by
  cases t <;> simp [mapFunctions, parts, mapFunctionsAll_eq_map]

/-- Function literals do not matter for the shape of a tree. -/
theorem shaped_mapFunctions_iff {t : Tree} : (t.mapFunctions f).Shaped ↔ t.Shaped := by
  have hparts {t : Tree} (h : ∀ u ∈ t.parts, (u.mapFunctions f).Shaped ↔ u.Shaped) :
      (t.mapFunctions f).Shaped ↔ t.Shaped := by
    rw [shaped_iff, shaped_iff (t := t), fits_mapFunctions_iff, parts_mapFunctions]
    simp only [List.forall_mem_map]
    exact and_congr_right fun _ => forall₂_congr h
  induction t using partsRec with
  | _ => exact hparts (by simp_all [parts])

section Unplaced

variable {line : Nat}

theorem unplacedExprs_lowerAll {ts : List Tree}
    (h : ∀ t ∈ ts, (t.lower line).unplaced = (t.mapFunctions .unplaced).lower 0) :
    unplacedExprs (lowerAll line ts) = lowerAll 0 (mapFunctionsAll .unplaced ts) := by
  rw [lowerAll_eq_map, lowerAll_eq_map, mapFunctionsAll_eq_map]
  induction ts with
  | nil => rfl
  | cons t ts ih =>
    rw [List.map_cons, unplacedExprs, h t (by simp), ih fun x hx => h x (by simp [hx])]
    rfl

theorem unplacedItems_itemsThen (t : Tree) (rest : List Item) :
    unplacedItems (itemsThen line t rest) =
      itemsThen 0 (t.mapFunctions .unplaced) (unplacedItems rest) := by
  have hlower {t : Tree} (h : ∀ rest, unplacedItems (itemsThen line t rest) =
      itemsThen 0 (t.mapFunctions .unplaced) (unplacedItems rest)) :
      (t.lower line).unplaced = (t.mapFunctions .unplaced).lower 0 := by
    rw [lower, Expr.unplaced, h]
    rfl
  induction t using partsRec generalizing rest with
  | array elements ih =>
    have hall := unplacedExprs_lowerAll fun t ht => hlower (ih t ht)
    simp [itemsThen, unplacedItems, Instr.unplaced, mapFunctions, hall]
  | call callee args ih ihargs =>
    have hall := unplacedExprs_lowerAll fun t ht => hlower (ihargs t ht)
    simp [itemsThen, unplacedItems, Instr.unplaced, mapFunctions, hall, ih]
  | index object idx ih ihidx =>
    have hidx := hlower ihidx
    simp only [lower] at hidx
    simp [itemsThen, unplacedItems, Instr.unplaced, mapFunctions, hidx, ih]
  | paren inner ih =>
    have hinner := hlower ih
    simp only [lower] at hinner
    simp [itemsThen, unplacedItems, mapFunctions, hinner]
  | binary op left right ihl ihr | assign op left right ihl ihr =>
    simp [itemsThen, unplacedItems, Instr.unplaced, mapFunctions, ihl, ihr]
  | unary op operand ih | member operand name ih =>
    simp [itemsThen, unplacedItems, Instr.unplaced, mapFunctions, ih]
  | _ => simp [itemsThen, unplacedItems, Instr.unplaced, mapFunctions]

/-- Only the function literals of a lowered tree have positions of their own. -/
theorem unplaced_lower (t : Tree) :
    (t.lower line).unplaced = (t.mapFunctions .unplaced).lower 0 := by
  rw [lower, Expr.unplaced, unplacedItems_itemsThen]
  rfl

theorem unplaced_toStmt (t : Tree) :
    (t.toStmt line).unplaced = (t.mapFunctions .unplaced).toStmt 0 := by
  cases t with
  | assign op target value =>
    cases target <;> simp [toStmt, Stmt.unplaced, unplaced_lower, mapFunctions]
  | _ => simp [toStmt, Stmt.unplaced, unplaced_lower, mapFunctions]

end Unplaced

/-! ## Spelling -/

section Spelling

variable {R S : FunctionDef → List Token → Prop} {used : List Token}

/-- The tokens spell the tree with other function literals in it, which are the same to
`f`. -/
def Respelled (f : FunctionDef → FunctionDef) (S : FunctionDef → List Token → Prop) (t : Tree)
    (used : List Token) : Prop :=
  ∃ t' : Tree, t'.mapFunctions f = t.mapFunctions f ∧ Spells S t'.pieces used

theorem respelled_more {ts : List Tree}
    (h : ∀ t ∈ ts, ∀ used, Spells R t.pieces used → Respelled f S t used)
    (hspells : Spells R (piecesMore ts) used) :
    ∃ ts', mapFunctionsAll f ts' = mapFunctionsAll f ts ∧ Spells S (piecesMore ts') used := by
  induction ts generalizing used with
  | nil => exact ⟨[], rfl, spells_nil_iff.2 (spells_nil_iff.1 hspells)⟩
  | cons t ts ih =>
    obtain ⟨comma, _, rfl, hcomma, hspells⟩ := spells_token_iff.1 hspells
    obtain ⟨u, v, rfl, hu, hv⟩ := spells_append_iff.1 hspells
    obtain ⟨t', ht', hspells'⟩ := h t (by simp) u hu
    obtain ⟨ts', hts', hspells''⟩ := ih (fun x hx => h x (by simp [hx])) hv
    refine ⟨t' :: ts', ?_, .cons hcomma (hspells'.append hspells'')⟩
    rw [mapFunctionsAll, mapFunctionsAll, ht', hts']

theorem respelled_all {ts : List Tree}
    (h : ∀ t ∈ ts, ∀ used, Spells R t.pieces used → Respelled f S t used)
    (hspells : Spells R (piecesAll ts) used) :
    ∃ ts', mapFunctionsAll f ts' = mapFunctionsAll f ts ∧ Spells S (piecesAll ts') used := by
  cases ts with
  | nil => exact ⟨[], rfl, spells_nil_iff.2 (spells_nil_iff.1 hspells)⟩
  | cons t ts =>
    obtain ⟨u, v, rfl, hu, hv⟩ := spells_append_iff.1 hspells
    obtain ⟨t', ht', hspells'⟩ := h t (by simp) u hu
    obtain ⟨ts', hts', hspells''⟩ := respelled_more (fun x hx => h x (by simp [hx])) hv
    refine ⟨t' :: ts', ?_, hspells'.append hspells''⟩
    rw [mapFunctionsAll, mapFunctionsAll, ht', hts']

/-- Two trees with a token between them. -/
theorem respelled_join (join : Tree → Tree → Tree) {k : TokenKind}
    (hpieces : ∀ l r, (join l r).pieces = l.pieces ++ .token k :: r.pieces)
    (hmap : ∀ l r, (join l r).mapFunctions f = join (l.mapFunctions f) (r.mapFunctions f))
    {left right : Tree} (hl : ∀ used, Spells R left.pieces used → Respelled f S left used)
    (hr : ∀ used, Spells R right.pieces used → Respelled f S right used)
    (h : Spells R (join left right).pieces used) : Respelled f S (join left right) used := by
  rw [hpieces] at h
  obtain ⟨u, v, rfl, hu, hv⟩ := spells_append_iff.1 h
  obtain ⟨tok, w, rfl, hkind, hw⟩ := spells_token_iff.1 hv
  obtain ⟨l', hl', hleft⟩ := hl u hu
  obtain ⟨r', hr', hright⟩ := hr w hw
  refine ⟨join l' r', ?_, ?_⟩
  · rw [hmap, hmap, hl', hr']
  · rw [hpieces]
    exact hleft.append (.cons hkind hright)

/-- Where the tokens of each function literal spell another one, the tokens of a tree
spell the tree with these in its place. -/
theorem respelled {t : Tree} (h : Spells R t.pieces used)
    (hR : ∀ d lit, t.Has (.function d) → R d lit → ∃ d', f d' = f d ∧ S d' lit) :
    Respelled f S t used := by
  have hpart {t u : Tree}
      (hR : ∀ d lit, t.Has (.function d) → R d lit → ∃ d', f d' = f d ∧ S d' lit)
      (hu : u ∈ t.parts) (d : FunctionDef) (lit : List Token) (hd : u.Has (.function d)) :
      R d lit → ∃ d', f d' = f d ∧ S d' lit := hR d lit (.part hu hd)
  induction t using partsRec generalizing used with
  | function d =>
    obtain ⟨lit, _, rfl, hlit, hnil⟩ := spells_function_iff.1 h
    obtain rfl := spells_nil_iff.1 hnil
    obtain ⟨d', hd', hS⟩ := hR d lit (.self _) hlit
    exact ⟨function d', by rw [mapFunctions, mapFunctions, hd'], .function hS .nil⟩
  | array elements ih =>
    obtain ⟨a, u, b, rfl, ha, hb, hu⟩ := spells_enclosed_iff.1 h
    obtain ⟨ts', hts', hspells⟩ :=
      respelled_all (fun t ht used h => ih t ht h (hpart hR ht)) hu
    refine ⟨array ts', ?_, spells_enclosed_iff.2 ⟨a, u, b, rfl, ha, hb, hspells⟩⟩
    rw [mapFunctions, mapFunctions, hts']
  | paren inner ih =>
    obtain ⟨a, u, b, rfl, ha, hb, hu⟩ := spells_enclosed_iff.1 h
    obtain ⟨t', ht', hspells⟩ := ih hu (hpart hR (by simp [parts]))
    refine ⟨paren t', ?_, spells_enclosed_iff.2 ⟨a, u, b, rfl, ha, hb, hspells⟩⟩
    rw [mapFunctions, mapFunctions, ht']
  | binary op left right ihl ihr =>
    exact respelled_join (binary op) (fun _ _ => rfl) (fun _ _ => rfl)
      (fun _ h => ihl h (hpart hR (by simp [parts])))
      (fun _ h => ihr h (hpart hR (by simp [parts]))) h
  | assign op left right ihl ihr =>
    exact respelled_join (assign op) (fun _ _ => rfl) (fun _ _ => rfl)
      (fun _ h => ihl h (hpart hR (by simp [parts])))
      (fun _ h => ihr h (hpart hR (by simp [parts]))) h
  | unary op operand ih =>
    obtain ⟨tok, u, rfl, hkind, hu⟩ := spells_token_iff.1 h
    obtain ⟨t', ht', hspells⟩ := ih hu (hpart hR (by simp [parts]))
    refine ⟨unary op t', ?_, .cons hkind hspells⟩
    rw [mapFunctions, mapFunctions, ht']
  | member object name ih =>
    obtain ⟨u, v, rfl, hu, hv⟩ := spells_append_iff.1 h
    obtain ⟨dot, _, rfl, hdot, hv⟩ := spells_token_iff.1 hv
    obtain ⟨tok, rfl, htok⟩ := spells_singleton_iff.1 hv
    obtain ⟨t', ht', hspells⟩ := ih hu (hpart hR (by simp [parts]))
    refine ⟨member t' name, ?_, hspells.append (.cons hdot (.cons htok .nil))⟩
    rw [mapFunctions, mapFunctions, ht']
  | call callee args ih ihargs =>
    obtain ⟨u, v, rfl, hu, hv⟩ := spells_append_iff.1 h
    obtain ⟨a, w, b, rfl, ha, hb, hw⟩ := spells_enclosed_iff.1 hv
    obtain ⟨t', ht', hspells⟩ := ih hu (hpart hR (by simp [parts]))
    obtain ⟨ts', hts', hspells'⟩ := respelled_all
      (fun t ht used h => ihargs t ht h (hpart hR (List.mem_cons_of_mem _ ht))) hw
    have henclosed := spells_enclosed_iff.2 ⟨a, w, b, rfl, ha, hb, hspells'⟩
    refine ⟨call t' ts', ?_, hspells.append henclosed⟩
    rw [mapFunctions, mapFunctions, ht', hts']
  | index object idx ih ihidx =>
    obtain ⟨u, v, rfl, hu, hv⟩ := spells_append_iff.1 h
    obtain ⟨a, w, b, rfl, ha, hb, hw⟩ := spells_enclosed_iff.1 hv
    obtain ⟨t', ht', hspells⟩ := ih hu (hpart hR (by simp [parts]))
    obtain ⟨i', hi', hspells'⟩ := ihidx hw (hpart hR (by simp [parts]))
    have henclosed := spells_enclosed_iff.2 ⟨a, w, b, rfl, ha, hb, hspells'⟩
    refine ⟨index t' i', ?_, hspells.append henclosed⟩
    rw [mapFunctions, mapFunctions, ht', hi']
  | num value | str value | bool value | ident name =>
    obtain ⟨tok, rfl, hkind⟩ := spells_singleton_iff.1 h
    exact ⟨_, rfl, .cons hkind .nil⟩

end Spelling

end Tree

end HeapScript
