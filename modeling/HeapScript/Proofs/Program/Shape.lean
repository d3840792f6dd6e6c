import HeapScript.Proofs.Program.Lowering
import HeapScript.Token.Basic

/-!
# The written form of expressions

* `Tree.pieces` writes a tree in source order. A function literal is one piece; all
  other pieces are tokens.
* `Spells` says that a list of tokens spells pieces, given which tokens are read as
  which function literal.
* `Tree.Shaped`: every operator of a tree stands over operands that bind tightly
  enough to be written without parentheses.
-/

namespace HeapScript

/-- The symbol that a prefix operator is written with. -/
def UnaryOp.symbol : UnaryOp → Symbol
  | neg => .operator .sub
  | not => .bang
  | bitNot => .tilde

/-- A part of a written expression: a token, or a function literal as a whole. -/
inductive Piece where
  | token (kind : TokenKind)
  | function (definition : FunctionDef)

namespace Piece

abbrev symbol (s : Symbol) : Piece := .token (.symbol s)
abbrev delimiter (d : Delimiter) : Piece := .symbol (.delimiter d)

end Piece

/-! ## Writing a tree -/

namespace Tree

/-- The word for a truth value. -/
def boolWord : Bool → Keyword
  | true => .trueValue
  | false => .falseValue

mutual

/-- The parts of a tree in source order. -/
def pieces : Tree → List Piece
  | num value => [.token (.num value)]
  | str value => [.token (.str value)]
  | bool value => [.symbol (.keyword (boolWord value))]
  | ident name => [.token (.ident name)]
  | function definition => [.function definition]
  | array elements => .delimiter .lbracket :: (piecesAll elements ++ [.delimiter .rbracket])
  | paren inner => .delimiter .lparen :: (inner.pieces ++ [.delimiter .rparen])
  | binary op left right => left.pieces ++ .symbol (.operator op) :: right.pieces
  | unary op operand => .symbol op.symbol :: operand.pieces
  | assign op target value => target.pieces ++ .symbol (.assign op) :: value.pieces
  | member object name => object.pieces ++ [.delimiter .dot, .token (.ident name)]
  | call callee args =>
    callee.pieces ++ .delimiter .lparen :: (piecesAll args ++ [.delimiter .rparen])
  | index object idx =>
    object.pieces ++ .delimiter .lbracket :: (idx.pieces ++ [.delimiter .rbracket])

/-- The parts of several trees, with commas between them. -/
def piecesAll : List Tree → List Piece
  | [] => []
  | t :: ts => t.pieces ++ piecesMore ts

/-- The parts of several trees, with a comma before each. -/
def piecesMore : List Tree → List Piece
  | [] => []
  | t :: ts => .delimiter .comma :: (t.pieces ++ piecesMore ts)

end

theorem pieces_ne_nil (t : Tree) : t.pieces ≠ [] := by
  cases t <;> simp [pieces]

theorem piecesMore_of_ne_nil {ts : List Tree} (h : ts ≠ []) :
    piecesMore ts = .delimiter .comma :: piecesAll ts := by
  cases ts with
  | nil => exact absurd rfl h
  | cons t ts => rw [piecesMore, piecesAll]

/-! ## Binding -/

/-- How tightly the outermost operator of a tree binds: assignment loosest, then the
binary operators by precedence, then the prefix operators. What is written without an
operator or with one behind it binds tightest, and so does a pair of parentheses. -/
def level : Tree → Nat
  | assign _ _ _ => 0
  | binary op _ _ => op.precedence
  | unary _ _ => 12
  | num _ | str _ | bool _ | ident _ | function _ | array _ | paren _ | member _ _ | call _ _
  | index _ _ => 13

theorem two_le_level {t : Tree} (h : 0 < t.level) : 2 ≤ t.level := by
  cases t with
  | assign => cases h
  | binary op => exact op.two_le_precedence
  | _ => simp [level]

/-- The operands of the outermost operator need no parentheses. The left operand of a
binary operator may be one of the same precedence, the right operand may not; the
target of an assignment is no assignment, its value may be one. -/
def Fits : Tree → Prop
  | binary op left right => op.precedence ≤ left.level ∧ op.precedence < right.level
  | unary _ operand => 12 ≤ operand.level
  | assign _ target _ => 0 < target.level
  | member object _ | call object _ | index object _ => 13 ≤ object.level
  | num _ | str _ | bool _ | ident _ | function _ | array _ | paren _ => True

/-- No operand in the tree, at any depth, needs parentheses. -/
def Shaped (t : Tree) : Prop :=
  ∀ u, t.Has u → u.Fits

theorem Shaped.fits {t : Tree} (h : t.Shaped) : t.Fits := h t (.self t)

theorem Shaped.part {t u : Tree} (h : t.Shaped) (hu : u ∈ t.parts) : u.Shaped :=
  fun x hx => h x (.part hu hx)

theorem shaped_iff {t : Tree} : t.Shaped ↔ t.Fits ∧ ∀ u ∈ t.parts, u.Shaped := by
  refine ⟨fun h => ⟨h.fits, fun u hu => h.part hu⟩, fun ⟨ht, hp⟩ u hu => ?_⟩
  cases hu with
  | self => exact ht
  | part hv hu => exact hp _ hv u hu

end Tree

theorem BinaryOp.precedence_le (op : BinaryOp) : op.precedence ≤ 11 := by cases op <;> decide

/-! ## Spelling -/

/-- The tokens spell the pieces: each token for itself, and function literals as `R`
says. -/
inductive Spells (R : FunctionDef → List Token → Prop) : List Piece → List Token → Prop
  | nil : Spells R [] []
  | token (tok : Token) {ps : List Piece} {used : List Token} : Spells R ps used →
    Spells R (.token tok.kind :: ps) (tok :: used)
  | function {d : FunctionDef} {lit used : List Token} {ps : List Piece} : R d lit →
    Spells R ps used → Spells R (.function d :: ps) (lit ++ used)

section Spells

variable {R S : FunctionDef → List Token → Prop} {ps qs : List Piece} {used : List Token}

@[simp] theorem spells_nil_iff : Spells R [] used ↔ used = [] := by
  constructor
  · rintro ⟨⟩
    rfl
  · rintro rfl
    exact .nil

@[simp] theorem spells_token_iff {k : TokenKind} : Spells R (.token k :: ps) used ↔
    ∃ tok u, used = tok :: u ∧ tok.kind = k ∧ Spells R ps u := by
  constructor
  · rintro (_ | ⟨tok, h⟩)
    exact ⟨tok, _, rfl, rfl, h⟩
  · rintro ⟨tok, u, rfl, rfl, h⟩
    exact .token tok h

@[simp] theorem spells_function_iff {d : FunctionDef} : Spells R (.function d :: ps) used ↔
    ∃ lit u, used = lit ++ u ∧ R d lit ∧ Spells R ps u := by
  constructor
  · rintro (_ | _ | ⟨hd, h⟩)
    exact ⟨_, _, rfl, hd, h⟩
  · rintro ⟨lit, u, rfl, hd, h⟩
    exact .function hd h

@[simp] theorem spells_append_iff : Spells R (ps ++ qs) used ↔
    ∃ u v, used = u ++ v ∧ Spells R ps u ∧ Spells R qs v := by
  induction ps generalizing used with
  | nil =>
    constructor
    · exact fun h => ⟨[], used, rfl, .nil, h⟩
    · rintro ⟨_, v, rfl, ⟨⟩, h⟩
      exact h
  | cons p ps ih =>
    cases p with
    | token k =>
      simp only [List.cons_append, spells_token_iff, ih]
      constructor
      · rintro ⟨tok, w, rfl, hk, u, v, rfl, hu, hv⟩
        exact ⟨tok :: u, v, rfl, ⟨tok, u, rfl, hk, hu⟩, hv⟩
      · rintro ⟨_, v, rfl, ⟨tok, u, rfl, hk, hu⟩, hv⟩
        exact ⟨tok, u ++ v, rfl, hk, u, v, rfl, hu, hv⟩
    | function d =>
      simp only [List.cons_append, spells_function_iff, ih]
      constructor
      · rintro ⟨lit, w, rfl, hd, u, v, rfl, hu, hv⟩
        exact ⟨lit ++ u, v, (List.append_assoc ..).symm, ⟨lit, u, rfl, hd, hu⟩, hv⟩
      · rintro ⟨_, v, rfl, ⟨lit, u, rfl, hd, hu⟩, hv⟩
        exact ⟨lit, u ++ v, List.append_assoc .., hd, u, v, rfl, hu, hv⟩

theorem spells_singleton_iff {k : TokenKind} : Spells R [.token k] used ↔
    ∃ tok, used = [tok] ∧ tok.kind = k := by
  simp only [spells_token_iff, spells_nil_iff]
  constructor
  · rintro ⟨tok, _, rfl, hk, rfl⟩
    exact ⟨tok, rfl, hk⟩
  · rintro ⟨tok, rfl, hk⟩
    exact ⟨tok, [], rfl, hk, rfl⟩

/-- Pieces between two tokens. -/
theorem spells_enclosed_iff {k k' : TokenKind} : Spells R (.token k :: (ps ++ [.token k'])) used ↔
    ∃ before u after, used = before :: (u ++ [after]) ∧ before.kind = k ∧ after.kind = k' ∧
      Spells R ps u := by
  simp only [spells_token_iff, spells_append_iff, spells_nil_iff]
  constructor
  · rintro ⟨before, _, rfl, hk, u, _, rfl, hu, after, _, rfl, hk', rfl⟩
    exact ⟨before, u, after, rfl, hk, hk', hu⟩
  · rintro ⟨before, u, after, rfl, hk, hk', hu⟩
    exact ⟨before, _, rfl, hk, u, _, rfl, hu, after, _, rfl, hk', rfl⟩

theorem Spells.cons {k : TokenKind} {tok : Token} (hk : tok.kind = k) (h : Spells R ps used) :
    Spells R (.token k :: ps) (tok :: used) :=
  hk ▸ .token tok h

theorem Spells.append {used' : List Token} (h : Spells R ps used) (h' : Spells R qs used') :
    Spells R (ps ++ qs) (used ++ used') :=
  spells_append_iff.2 ⟨used, used', rfl, h, h'⟩

theorem Spells.ne_nil (hR : ∀ d lit, R d lit → lit ≠ []) (h : Spells R ps used) (hps : ps ≠ []) :
    used ≠ [] := by
  cases h with
  | nil => exact absurd rfl hps
  | token tok h => exact List.cons_ne_nil _ _
  | function hd h => exact List.append_ne_nil_of_left_ne_nil (hR _ _ hd) _

end Spells

end HeapScript
