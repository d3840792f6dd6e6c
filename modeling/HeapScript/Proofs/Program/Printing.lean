import HeapScript.Proofs.Program.Shape

/-!
# Printing

A program as the tokens it is written with, as few as there can be.

* `Stmt.print` prints a statement. A constant of type `func` that holds a function
  literal has two spellings, and the caller chooses between them.
* `Expr.print` goes back from postfix order to source order, with the parts that wait
  for their operator on a stack.
* `print_lower`: a lowered tree is printed as it is written.
-/

namespace HeapScript

namespace TokenKind

abbrev word (k : Keyword) : TokenKind := .symbol (.keyword k)
abbrev delimiter (d : Delimiter) : TokenKind := .symbol (.delimiter d)

end TokenKind

/-! ## Types and parameters -/

/-- The token for the name of a type. -/
def typeWord (name : String) : TokenKind :=
  if name = "func" then .word .func
  else if name = "class" then .word .classDef
  else .ident name

/-- A type: a name and a pair of brackets for each array. -/
def Ty.print : Ty → List TokenKind
  | named name => [typeWord name]
  | array element => element.print ++ [.delimiter .lbracket, .delimiter .rbracket]

/-- A word that may be missing. -/
def printWord (k : Keyword) (there : Bool) : List TokenKind :=
  if there then [.word k] else []

/-- A parameter or a member slot. -/
def Param.print (p : Param) : List TokenKind :=
  printWord .ref p.isRef ++ (p.ty.print ++ [.ident p.name])

/-- Parameters with a comma before each. -/
def printMoreParams : List Param → List TokenKind
  | [] => []
  | p :: ps => .delimiter .comma :: (p.print ++ printMoreParams ps)

/-- Parameters with commas between them. -/
def printParams : List Param → List TokenKind
  | [] => []
  | p :: ps => p.print ++ printMoreParams ps

/-- Member slots, each with its semicolon. -/
def printMembers : List Param → List TokenKind
  | [] => []
  | p :: ps => p.print ++ .delimiter .semicolon :: printMembers ps

/-- The definition of a class, without the semicolon behind it. -/
def ClassDef.print (c : ClassDef) : List TokenKind :=
  .word .classDef :: .ident c.name :: .delimiter .lbrace ::
    (printMembers c.members ++ [.delimiter .rbrace])

/-- The declared result of a function. The result `var` is not written. -/
def printResult (ty : Ty) (returnsRef : Bool) : List TokenKind :=
  if ty = .var ∧ returnsRef = false then []
  else .delimiter .arrow :: (printWord .ref returnsRef ++ ty.print)

/-- The words before a declared type. -/
def DeclFlags.print (f : DeclFlags) : List TokenKind :=
  printWord .const f.isConst ++ (printWord .alloc f.isAlloc ++ printWord .ref f.isRef)

/-- A declaration, given what is printed behind the name. -/
def printDecl (flags : DeclFlags) (ty : Ty) (name : String) (init : List TokenKind) :
    List TokenKind :=
  flags.print ++ (ty.print ++ .ident name :: init)

/-- An assignment to a member, given how its parts are printed. -/
def printSetMember (target : List TokenKind) (member : String) (op : AssignOp)
    (value : List TokenKind) : List TokenKind :=
  target ++ .delimiter .dot :: .ident member :: .symbol (.assign op) :: value

/-- An assignment to an element, given how its parts are printed. -/
def printSetIndex (target index : List TokenKind) (op : AssignOp) (value : List TokenKind) :
    List TokenKind :=
  target ++ .delimiter .lbracket :: (index ++ .delimiter .rbracket :: .symbol (.assign op) :: value)

/-! ## Statements and expressions -/

mutual

/-- A statement with its terminator. A function definition is printed without the `=`
where `short` says so, which can tell occurrences apart by their lines. -/
def Stmt.print (short : Stmt → Bool) : Stmt → List TokenKind
  | .decl flags ty name (some ⟨[.instr (.function d)], l⟩) line =>
    if flags = { isConst := true } ∧ ty = .func ∧
        short (.decl flags ty name (some ⟨[.instr (.function d)], l⟩) line) = true then
      d.print short (some name)
    else
      printDecl flags ty name (.symbol (.assign .assign) :: d.print short none) ++
        [.delimiter .semicolon]
  | .decl flags ty name init _ =>
    printDecl flags ty name (printInit short init) ++ [.delimiter .semicolon]
  | .expr e _ => e.print short ++ [.delimiter .semicolon]
  | .setMember target member op value _ =>
    printSetMember (target.print short) member op (value.print short) ++ [.delimiter .semicolon]
  | .setIndex target index op value _ =>
    printSetIndex (target.print short) (index.print short) op (value.print short) ++
      [.delimiter .semicolon]
  | .classDef c _ => c.print ++ [.delimiter .semicolon]
  | .ifThen cond thenBranch elseBranch _ =>
    .word .ifThen :: .delimiter .lparen :: (cond.print short ++ .delimiter .rparen ::
      (thenBranch.print short ++ printElse short elseBranch))
  | .whileLoop cond body _ =>
    .word .whileLoop :: .delimiter .lparen :: (cond.print short ++ .delimiter .rparen ::
      body.print short)
  | .forLoop init cond step body _ =>
    .word .forLoop :: .delimiter .lparen :: (printClause short init ++ .delimiter .semicolon ::
      (printExpr? short cond ++ .delimiter .semicolon :: (printClause short step ++
        .delimiter .rparen :: body.print short)))
  | .block body _ => .delimiter .lbrace :: (printStmts short body ++ [.delimiter .rbrace])
  | .breakLoop _ => [.word .breakLoop, .delimiter .semicolon]
  | .continueLoop _ => [.word .continueLoop, .delimiter .semicolon]
  | .returnValue value _ =>
    .word .returnValue :: (printExpr? short value ++ [.delimiter .semicolon])
  | .nop _ => [.delimiter .semicolon]

/-- The first or the last clause of a `for`: a declaration or an expression. -/
def printClause (short : Stmt → Bool) : Option Stmt → List TokenKind
  | some (.decl flags ty name init _) => printDecl flags ty name (printInit short init)
  | some (.expr e _) => e.print short
  | some (.setMember target member op value _) =>
    printSetMember (target.print short) member op (value.print short)
  | some (.setIndex target index op value _) =>
    printSetIndex (target.print short) (index.print short) op (value.print short)
  | _ => []

/-- The other branch of an `if`. -/
def printElse (short : Stmt → Bool) : Option Stmt → List TokenKind
  | none => []
  | some s => .word .elseThen :: s.print short

/-- Statements in sequence. -/
def printStmts (short : Stmt → Bool) : List Stmt → List TokenKind
  | [] => []
  | s :: r => s.print short ++ printStmts short r

/-- The value of a declaration. -/
def printInit (short : Stmt → Bool) : Option Expr → List TokenKind
  | none => []
  | some e => .symbol (.assign .assign) :: e.print short

/-- An expression that may be missing. -/
def printExpr? (short : Stmt → Bool) : Option Expr → List TokenKind
  | none => []
  | some e => e.print short

/-- An expression, back in source order. -/
def Expr.print (short : Stmt → Bool) : Expr → List TokenKind
  | ⟨items, _⟩ => (printItems short items []).headD []

/-- What is on the stack behind a sequence of items. -/
def printItems (short : Stmt → Bool) : List Item → List (List TokenKind) → List (List TokenKind)
  | [], stack => stack
  | .instr i :: r, stack => printItems short r (i.print short stack)
  | .group e :: r, stack =>
    printItems short r
      ((.delimiter .lparen :: (e.print short ++ [.delimiter .rparen])) :: stack)

/-- What an instruction makes of the printed operands on the stack. -/
def Instr.print (short : Stmt → Bool) : Instr → List (List TokenKind) → List (List TokenKind)
  | .num value, stack => [.num value] :: stack
  | .str value, stack => [.str value] :: stack
  | .bool value, stack => [.word (Tree.boolWord value)] :: stack
  | .ident name, stack => [.ident name] :: stack
  | .function d, stack => d.print short none :: stack
  | .array elements, stack =>
    (.delimiter .lbracket :: (printExprs short elements ++ [.delimiter .rbracket])) :: stack
  | .binary op, right :: left :: stack => (left ++ .symbol (.operator op) :: right) :: stack
  | .unary op, operand :: stack => (.symbol op.symbol :: operand) :: stack
  | .assign op, value :: target :: stack => (target ++ .symbol (.assign op) :: value) :: stack
  | .member, name :: object :: stack => (object ++ .delimiter .dot :: name) :: stack
  | .call args, callee :: stack =>
    (callee ++ .delimiter .lparen :: (printExprs short args ++ [.delimiter .rparen])) :: stack
  | .index e, object :: stack =>
    (object ++ .delimiter .lbracket :: (e.print short ++ [.delimiter .rbracket])) :: stack
  | _, stack => stack

/-- Expressions with commas between them. -/
def printExprs (short : Stmt → Bool) : List Expr → List TokenKind
  | [] => []
  | e :: r => e.print short ++ printMoreExprs short r

/-- Expressions with a comma before each. -/
def printMoreExprs (short : Stmt → Bool) : List Expr → List TokenKind
  | [] => []
  | e :: r => .delimiter .comma :: (e.print short ++ printMoreExprs short r)

/-- A function literal or, with a name, a function definition. -/
def FunctionDef.print (short : Stmt → Bool) : FunctionDef → Option String → List TokenKind
  | ⟨params, returnType, returnsRef, captures, body, _⟩, name =>
    printWord .closure captures ++ .word .func ::
      (name.toList.map .ident ++ .delimiter .lparen :: (printParams params ++
        .delimiter .rparen :: (printResult returnType returnsRef ++ body.print short)))

end

theorem FunctionDef.print_eq (short : Stmt → Bool) (d : FunctionDef) (name : Option String) :
    d.print short name = printWord .closure d.captures ++ .word .func ::
      (name.toList.map .ident ++ .delimiter .lparen :: (printParams d.params ++
        .delimiter .rparen :: (printResult d.returnType d.returnsRef ++ d.body.print short))) := by
  cases d
  rw [FunctionDef.print]

/-- A declaration is printed as in a `for`, with a semicolon, or in the short spelling. -/
theorem Stmt.print_decl (short : Stmt → Bool) (flags : DeclFlags) (ty : Ty) (name : String)
    (init : Option Expr) (line : Nat) :
    (Stmt.decl flags ty name init line).print short =
        printClause short (some (.decl flags ty name init line)) ++ [.delimiter .semicolon] ∨
      ∃ d l, flags = { isConst := true } ∧ ty = .func ∧
        init = some ⟨[.instr (.function d)], l⟩ ∧
        (Stmt.decl flags ty name init line).print short = d.print short (some name) := by
  rw [Stmt.print.eq_def]
  split
  · rename_i heq
    cases heq
    split
    · rename_i hshort
      exact .inr ⟨_, _, hshort.1, hshort.2.1, rfl, rfl⟩
    · exact .inl rfl
  · rename_i heq
    cases heq
    exact .inl rfl
  all_goals
    rename_i heq
    cases heq

/-- The tokens of a piece. -/
def Piece.print (short : Stmt → Bool) : Piece → List TokenKind
  | token k => [k]
  | function d => d.print short none

/-- A tree as it is written. -/
def Tree.print (short : Stmt → Bool) (t : Tree) : List TokenKind :=
  t.pieces.flatMap (Piece.print short)

/-! ## Lowered trees -/

namespace Tree

/-- Induction on all the trees that a tree is made of. -/
@[elab_as_elim]
theorem partsRec {motive : Tree → Prop} (num : ∀ value, motive (num value))
    (str : ∀ value, motive (str value)) (bool : ∀ value, motive (bool value))
    (ident : ∀ name, motive (ident name)) (function : ∀ d, motive (function d))
    (array : ∀ elements, (∀ t ∈ elements, motive t) → motive (array elements))
    (paren : ∀ inner, motive inner → motive (paren inner))
    (binary : ∀ op left right, motive left → motive right → motive (binary op left right))
    (unary : ∀ op operand, motive operand → motive (unary op operand))
    (assign : ∀ op target value, motive target → motive value → motive (assign op target value))
    (member : ∀ object name, motive object → motive (member object name))
    (call : ∀ callee args, motive callee → (∀ t ∈ args, motive t) → motive (call callee args))
    (index : ∀ object idx, motive object → motive idx → motive (index object idx)) (t : Tree) :
    motive t :=
  @Tree.rec motive (fun ts => ∀ t ∈ ts, motive t) num str bool ident function array paren binary
    unary assign member call index (by simp) (fun _ _ ht hts => by simpa using ⟨ht, hts⟩) t

section Print

variable {short : Stmt → Bool} {line : Nat}

theorem printExprs_lowerAll {ts : List Tree}
    (h : ∀ t ∈ ts, (t.lower line).print short = t.print short) :
    printExprs short (lowerAll line ts) = (piecesAll ts).flatMap (Piece.print short) := by
  have hmore (ts : List Tree) (h : ∀ t ∈ ts, (t.lower line).print short = t.print short) :
      printMoreExprs short (lowerAll line ts) = (piecesMore ts).flatMap (Piece.print short) := by
    induction ts with
    | nil => rfl
    | cons t ts ih =>
      have ht : Expr.print short ⟨itemsThen line t [], line⟩ = t.print short := h t (by simp)
      simp [lowerAll, printMoreExprs, piecesMore, ht, ih fun x hx => h x (by simp [hx]), Tree.print,
        Piece.print]
  cases ts with
  | nil => rfl
  | cons t ts =>
    have ht : Expr.print short ⟨itemsThen line t [], line⟩ = t.print short := h t (by simp)
    simp [lowerAll, printExprs, piecesAll, ht, hmore ts fun x hx => h x (by simp [hx]), Tree.print]

/-- A lowered tree leaves its written form on the stack. -/
theorem printItems_itemsThen (t : Tree) (rest : List Item) (stack : List (List TokenKind)) :
    printItems short (itemsThen line t rest) stack =
      printItems short rest (t.print short :: stack) := by
  -- what is said of items is said of the expression they make
  have hlower {t : Tree} (h : ∀ rest stack, printItems short (itemsThen line t rest) stack =
      printItems short rest (t.print short :: stack)) :
      Expr.print short ⟨itemsThen line t [], line⟩ = t.print short := by
    rw [Expr.print, h]
    rfl
  induction t using partsRec generalizing rest stack with
  | array elements ih =>
    have hall := printExprs_lowerAll fun t ht => hlower (ih t ht)
    simp [itemsThen, printItems, Instr.print, Tree.print, pieces, Piece.print, hall]
  | call callee args ih ihargs =>
    have hall := printExprs_lowerAll fun t ht => hlower (ihargs t ht)
    simp [itemsThen, printItems, Instr.print, Tree.print, pieces, Piece.print, hall, ih]
  | index object idx ih ihidx =>
    simp [itemsThen, printItems, Instr.print, Tree.print, pieces, Piece.print, hlower ihidx, ih]
  | paren inner ih =>
    simp [itemsThen, printItems, Tree.print, pieces, Piece.print, hlower ih]
  | binary op left right ihl ihr | assign op left right ihl ihr =>
    simp [itemsThen, printItems, Instr.print, Tree.print, pieces, Piece.print, ihl, ihr]
  | unary op operand ih | member operand name ih =>
    simp [itemsThen, printItems, Instr.print, Tree.print, pieces, Piece.print, ih]
  | _ => simp [itemsThen, printItems, Instr.print, Tree.print, pieces, Piece.print]

theorem print_lower (t : Tree) : (t.lower line).print short = t.print short := by
  rw [lower, Expr.print, printItems_itemsThen]
  rfl

end Print

end Tree

/-- Tokens that a piece list is printed as spell it, with a bound on how long the
function literals are. -/
theorem spells_of_print {short : Stmt → Bool} {ps : List Piece} {used : List Token} {n : Nat}
    (h : used.map Token.kind = ps.flatMap (Piece.print short)) (hn : used.length ≤ n) :
    Spells (fun d lit => lit.map Token.kind = d.print short none ∧ lit.length ≤ n) ps used := by
  induction ps generalizing used with
  | nil => exact spells_nil_iff.2 (List.map_eq_nil_iff.1 h)
  | cons p ps ih =>
    rw [List.flatMap_cons] at h
    obtain ⟨u, v, rfl, hu, hv⟩ := List.map_eq_append_iff.1 h
    rw [List.length_append] at hn
    have hmore := ih hv (by omega)
    cases p with
    | token k =>
      obtain ⟨tok, rfl, hkind⟩ := List.map_eq_singleton_iff.1 hu
      exact .cons hkind hmore
    | function d => exact .function ⟨hu, by omega⟩ hmore

/-- The tokens of a program that is written on one line, with the short spelling of
function definitions. -/
def writtenTokens (body : List Stmt) : List Token :=
  (printStmts (fun _ => true) body ++ [TokenKind.eof]).map fun kind => ⟨kind, "", 1⟩

end HeapScript
