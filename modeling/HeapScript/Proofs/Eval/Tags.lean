import HeapScript.Proofs.Law.Trait
import HeapScript.Proofs.Program.Check
import HeapScript.Proofs.Program.Printing
import HeapScript.Proofs.Value.Tags

/-!
# Arrays and their tags

* `arrays_keep_tags`: in every array that is stored, at every depth, the tag accepts the
  type of every element, if the programs write no empty array literal, declare no array
  of `var` and call no class `var`.
* `arrays_break_tags`: with an empty literal an `int[]` can come to hold a text. An array
  of `var` fits every array type, since the empty literal is one; but it need not be
  empty.
-/

namespace HeapScript

/-- What an expression may hold: no empty array literal, and function literals that
declare solid types. -/
structure Expr.Solid (e : Expr) : Prop where
  array : .array [] ∉ e.flatten
  params {d : FunctionDef} {p : Param} : .function d ∈ e.flatten → p ∈ d.params → p.ty.isSolid
  result {d : FunctionDef} : .function d ∈ e.flatten → d.returnType.isSolid

/-- A class is not called `var`, since a literal of its objects would be taken for an array
of anything, and its members have solid types. -/
def ClassDef.Solid (c : ClassDef) : Prop :=
  (Ty.ofText c.name).isDefinite ∧ ∀ p ∈ c.members, p.ty.isSolid

/-- What a statement may declare: solid types and solid classes. -/
def Stmt.Solid : Stmt → Prop
  | .decl _ ty _ _ _ => ty.isSolid
  | .classDef c _ => c.Solid
  | _ => True

/-- The program writes no empty array literal, declares no array of `var` and calls no
class `var`. -/
structure Program.Solid (p : Program) : Prop where
  exprs : ∀ e, p.Has e → e.Solid
  stmts : ∀ s, p.Contains s → s.Solid

/-- Whether an expression writes no empty array literal, and declares solid types. -/
def Expr.checkSolid (e : Expr) : Bool :=
  e.flatten.all fun
    | .array [] => false
    | .function d => d.params.all (·.ty.isSolid) && d.returnType.isSolid
    | _ => true

/-- Whether a statement declares solid types and solid classes. -/
def Stmt.checkSolid : Stmt → Bool
  | .decl _ ty _ _ _ => ty.isSolid
  | .classDef c _ => (Ty.ofText c.name).isDefinite && c.members.all (·.ty.isSolid)
  | _ => true

theorem Program.solid_of_check {p : Program}
    (h : p.check Expr.checkSolid Stmt.checkSolid = true) : p.Solid where
  exprs e he := by
    have hall := List.all_eq_true.1 (has_of_check h he)
    have hfunction : ∀ {d}, .function d ∈ e.flatten →
        (∀ p ∈ d.params, p.ty.isSolid) ∧ d.returnType.isSolid := by
      intro d hd
      simpa using hall _ hd
    exact ⟨fun ha => Bool.false_ne_true (hall _ ha), fun hd hp => (hfunction hd).1 _ hp,
      fun hd => (hfunction hd).2⟩
  stmts s hs := by
    have hcheck := contains_of_check h hs
    cases s with
    | decl flags ty name init line => exact hcheck
    | classDef c line => simpa [Stmt.checkSolid, Stmt.Solid, ClassDef.Solid] using hcheck
    | _ => trivial

namespace Value

/-- What a value is like in solid programs, its parts apart: arrays have definite tags
that are true of their elements. -/
def Solid : Value → Prop
  | array tag items => tag.isDefinite ∧ ∀ x ∈ items, tag.accepts x.type
  | object className layout _ => (Ty.ofText className).isDefinite ∧ ∀ p ∈ layout, p.ty.isSolid
  | classDef c => c.Solid
  | function f => (∀ p ∈ f.definition.params, p.ty.isSolid) ∧ f.definition.returnType.isSolid ∧
      f.definition.body.Within Expr.Solid Stmt.Solid
  | num _ | str _ | bool _ | ref _ | ident _ | void | unknown => True

variable {v part new : Value} {s : Step} {ty : Ty} {holdsRef : Bool}

theorem solid_of_isScalar (h : v.IsScalar) : v.Solid := by
  cases v <;> trivial

theorem Solid.truthful (h : v.Solid) : v.Truthful := by
  rintro tag items rfl
  exact h.2

theorem Solid.isDefinite (h : v.Solid) : v.type.isDefinite := by
  cases v with
  | num n =>
    rw [type]
    split <;> rfl
  | array tag items => exact h.1
  | object className layout members => exact h.1
  | _ => rfl

theorem Solid.isSolid_of_enter (hv : v.Solid) (h : v.enter s = .ok (part, ty, holdsRef)) :
    ty.isSolid := by
  cases s with
  | member name =>
    obtain ⟨className, layout, members, i, p, rfl, -, hp, -, rfl, -⟩ := enter_member h
    exact hv.2 p (List.mem_of_getElem? hp)
  | index idx =>
    obtain ⟨items, i, rfl, -⟩ := enter_index h
    exact Ty.isSolid_of_isDefinite hv.1

/-- A solid value stays so when a part becomes one that its slot accepts. Members may
become anything: their types are checked where they are assigned. -/
theorem Solid.replace (hv : v.Solid) (h : v.enter s = .ok (part, ty, holdsRef))
    (hnew : (∃ idx, s = .index idx) → ty.accepts new.type) : (v.replace s new).Solid := by
  cases s with
  | member name =>
    obtain ⟨className, layout, members, i, p, rfl, hi, -⟩ := enter_member h
    simp only [Value.replace, hi]
    exact hv
  | index idx =>
    have htrue := truthful_replace hv.truthful h (hnew ⟨idx, rfl⟩)
    obtain ⟨items, i, rfl, hi, -⟩ := enter_index h
    simp only [Value.replace, hi] at htrue ⊢
    exact ⟨hv.1, truthful_array.1 htrue⟩

theorem Solid.retag (hv : v.Every Solid) (hty : ty.isSolid) (h : ty.accepts v.type) :
    (v.retag ty).Every Solid := by
  induction ty generalizing v with
  | named name => exact hv
  | array element ih =>
    cases v with
    | array tag items =>
      have hvar : element ≠ .var := Ty.ne_var_of_isDefinite hty
      have htrue := truthful_retag hv.self.truthful hv.self.1 h
      simp only [Value.retag, hvar, if_false]
      refine every_iff.2 ⟨⟨hty, truthful_array.1 htrue⟩, fun x hx => ?_⟩
      obtain ⟨y, hy, rfl⟩ := List.mem_map.1 hx
      obtain ⟨_, ⟨⟩, haccepts⟩ := Ty.array_accepts_iff.1 h
      have haccepts := haccepts.resolve_left (Ty.ne_var_of_isDefinite hv.self.1)
      exact ih (hv.part hy) (Ty.isSolid_of_isDefinite hty)
        (Ty.accepts_trans haccepts (hv.self.2 y hy) hv.self.1)
    | _ => exact hv

end Value

/-- The trait of the values that solid programs make. -/
def solidity : Trait where
  Source := Expr.Solid
  Code := Stmt.Solid
  Declares _ ty := ty.isSolid
  Retags ty := ty.isSolid
  Holds := Value.Solid
  Var _ x := x.ty.isSolid
  declares_of_decl h := h
  declares_of_param hf hp := hf.1 _ hp
  declares_of_member hc hp := hc.2 _ hp
  declares_named _ := rfl
  declares_texts := rfl
  retags_of_declares h := h
  retags_of_var h := h
  retags_of_enter hv h := hv.isSolid_of_enter h
  retags_of_result hf := hf.2.1
  var_of_declares h _ := h
  var_of_alloc _ h _ := h
  var_this _ := rfl
  var_assigned h _ := h
  scalar := Value.solid_of_isScalar
  ref _ := trivial
  texts texts := by
    refine ⟨rfl, fun x hx => ?_⟩
    obtain ⟨s, -, rfl⟩ := List.mem_map.1 hx
    exact Ty.accepts_self _
  function he hd hb := ⟨fun _ hp => he.params hd hp, he.result hd, hb⟩
  body hf := hf.2.2
  rebound _ _ hf := hf
  classDef hc := hc
  array {e elements items v} he hmem hlen hi h := by
    have htrue := Value.truthful_arrayOf h
    rcases arrayOf_eq_ok h with ⟨rfl, -⟩ | ⟨first, rest, rfl, rfl, -⟩
    · rw [List.length_eq_zero_iff.1 hlen.symm] at hmem
      exact absurd hmem he.array
    · exact ⟨(hi first List.mem_cons_self).1.self.isDefinite, Value.truthful_array.1 htrue⟩
  binary {op a b v} ha hb _ _ h := by
    rcases Value.binary_eq_ok h with hs | ⟨tag, items, rfl, -⟩
    · exact Value.solid_of_isScalar hs
    · have htrue := Value.truthful_binary ha.self.truthful hb.self.truthful h
      obtain ⟨⟨xs, rfl | rfl⟩, -⟩ := Value.mergedFrom_binary h
      · exact ⟨ha.self.1, Value.truthful_array.1 htrue⟩
      · exact ⟨hb.self.1, Value.truthful_array.1 htrue⟩
  object hc _ := hc
  default {ty} h := by
    rw [Ty.default.eq_def]
    split
    · exact ⟨h, by simp⟩
    all_goals trivial
  retag ht h _ hv := Value.Solid.retag hv ht h
  replace {v part new s ty holdsRef} hv h htype _ _ := by
    refine hv.replace h ?_
    rintro ⟨idx, rfl⟩
    obtain ⟨items, i, rfl, -, hpart, -⟩ := Value.enter_index h
    rw [htype]
    exact hv.2 part (List.mem_of_getElem? hpart)
  store {v part new s ty holdsRef} hv h htakes := by
    refine hv.replace h ?_
    rintro ⟨idx, rfl⟩
    obtain ⟨-, -, -, -, -, rfl⟩ := Value.enter_index h
    cases htakes with
    | data _ haccepts => exact haccepts
    | stray index _ he₀ =>
      obtain ⟨-, -, -, -, -, hfalse⟩ := Value.enter_index he₀
      cases hfalse

namespace Machine

/-- In every array that a machine stores, at every depth, the tag accepts the types of
the elements, if the programs that were run write no empty array literal, declare no array
of `var` and call no class `var`. -/
theorem arrays_keep_tags {m : Machine} (hm : m.ReachableBy Program.Solid) {v : Value}
    (hv : m.Stores v) : v.Every Value.Truthful := by
  have hinv : solidity.Inv m :=
    Trait.inv_of_reachableBy (fun p hp => Program.within hp.exprs hp.stmts) hm
  exact (hinv.stores hv).imp fun x hx => Value.Solid.truthful hx

end Machine

/-! ## An array of arrays -/

/-- The statements `num[] h = [1]; num[][] g = [h ^ h, h];`. -/
def doubling : List Stmt :=
  [.decl {} (.array .num) "h" (some ((Tree.array [.num 1]).lower 1)) 1,
    .decl {} (.array (.array .num)) "g"
      (some ((Tree.array [.binary .bitXor (.ident "h") (.ident "h"), .ident "h"]).lower 1)) 1]

/-- What the second variable holds. -/
def doubled : Value :=
  .array (.array .num) [.array .num [.num 1, .num 1], .array .num [.num 1]]

/-- Whole numbers in arrays of numbers. -/
theorem arrays_keep_tags_doubling :
    ∃ m : Machine, m.ReachableBy Program.Solid ∧ m.Stores doubled ∧
      doubled.Every Value.Truthful := by
  have hrun : ∃ m, parse "main" (writtenTokens doubling) = .ok ⟨"main", doubling⟩ ∧
      (Machine.create {} .builtin .silent {}).runWith 20 ⟨"main", doubling⟩ = .ok () m ∧
      m.frames.main.vars[0]? = some ("g", ⟨.array (.array .num), doubled, false⟩) :=
    ⟨_, rfl, rfl, rfl⟩
  obtain ⟨m, hp, hrun, hg⟩ := hrun
  have hm : m.ReachableBy Program.Solid :=
    .run 20 (.create {} .silent {}) hp (Program.solid_of_check rfl) (by rw [hrun]; rfl)
  have hg : m.Stores doubled := .var m.frames.main_mem_frames (List.mem_of_getElem? hg)
  exact ⟨m, hm, hg, Machine.arrays_keep_tags hm hg⟩

/-! ## A text among whole numbers -/

/-- The statement `int[][] g = [[], ["a"]];`. -/
def mislabelling : List Stmt :=
  [.decl {} (.array (.array .int)) "g"
    (some ((Tree.array [.array [], .array [.str "a"]]).lower 1)) 1]

/-- An array of whole numbers can come to hold a text. -/
theorem arrays_break_tags :
    ∃ m : Machine, m.Reachable ∧
      m.Stores (.array (.array .int) [.array .int [], .array .int [.str "a"]]) ∧
      ¬Value.Truthful (.array .int [.str "a"]) := by
  have hrun : ∃ m, parse "main" (writtenTokens mislabelling) = .ok ⟨"main", mislabelling⟩ ∧
      (Machine.create {} .builtin .silent {}).runWith 20 ⟨"main", mislabelling⟩ = .ok () m ∧
      m.frames.main.vars[0]? = some ("g", ⟨.array (.array .int),
        .array (.array .int) [.array .int [], .array .int [.str "a"]], false⟩) :=
    ⟨_, rfl, rfl, rfl⟩
  obtain ⟨m, hp, hrun, hg⟩ := hrun
  refine ⟨m, .run 20 (.create {} .silent {}) hp (by rw [hrun]; rfl), ?_, fun h => ?_⟩
  · exact .var m.frames.main_mem_frames (List.mem_of_getElem? hg)
  · exact absurd (Value.truthful_array.1 h (.str "a") List.mem_cons_self) (by decide)

end HeapScript
