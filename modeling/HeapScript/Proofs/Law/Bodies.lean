import HeapScript.Proofs.Law.Trait

/-!
# The code of stored functions

* `Trait.ofBodies` is the trait that the bodies of stored functions consist of such
  expressions and statements as the program does. It says nothing else of values but that
  they are no names.
-/

namespace HeapScript

variable {P : Expr → Prop} {C : Stmt → Prop}

/-- The value is no name, and a body of a function has only expressions and statements of
which the properties hold. -/
def Value.BodiesIn (P : Expr → Prop) (C : Stmt → Prop) : Value → Prop
  | .ident _ => False
  | .function f => f.definition.body.Within P C
  | _ => True

theorem Value.bodiesIn_replace {v part new : Value} {s : Step} {ty : Ty} {holdsRef : Bool}
    (h : v.enter s = .ok (part, ty, holdsRef)) : (v.replace s new).BodiesIn P C := by
  cases s with
  | member name =>
    obtain ⟨className, layout, members, i, p, rfl, hi, -⟩ := enter_member h
    simp only [replace, hi, BodiesIn]
  | index idx =>
    obtain ⟨items, i, rfl, hi, -⟩ := enter_index h
    simp only [replace, hi, BodiesIn]

/-- The trait that stored functions come from programs with such expressions and
statements only. -/
def Trait.ofBodies (P : Expr → Prop) (C : Stmt → Prop) : Trait where
  Source := P
  Code := C
  Declares _ _ := True
  Retags _ := True
  Holds := Value.BodiesIn P C
  Var _ _ := True
  declares_of_decl _ := trivial
  declares_of_param _ _ := trivial
  declares_of_member _ _ := trivial
  declares_named _ := trivial
  declares_texts := trivial
  retags_of_declares _ := trivial
  retags_of_var _ := trivial
  retags_of_enter _ _ := trivial
  retags_of_result _ := trivial
  var_of_declares _ _ := trivial
  var_of_alloc _ _ _ := trivial
  var_this _ := trivial
  var_assigned _ _ := trivial
  scalar {v} h := by cases v <;> trivial
  ref _ := trivial
  texts _ := trivial
  function _ _ hb := hb
  body hf := hf
  rebound _ _ hf := hf
  classDef _ := trivial
  array _ _ _ _ h := by
    obtain ⟨tag, rfl⟩ := eq_array_of_arrayOf h
    trivial
  binary {op a b v} _ _ _ _ h := by
    rcases Value.binary_eq_ok h with hs | ⟨tag, items, rfl, -⟩
    · cases v <;> trivial
    · trivial
  object _ _ := trivial
  default {ty} _ := by
    rw [Ty.default.eq_def]
    split <;> trivial
  retag {ty v} _ _ _ hv := Value.Every.retag (fun _ _ _ _ => trivial) hv ty
  replace _ he _ _ _ := Value.bodiesIn_replace he
  store _ he _ := Value.bodiesIn_replace he

end HeapScript
