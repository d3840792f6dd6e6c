import HeapScript.Proofs.Eval.Reachable
import HeapScript.Proofs.Heap.Chain
import HeapScript.Proofs.Machine.Confined
import HeapScript.Proofs.Machine.Outcome
import HeapScript.Proofs.Machine.Slot
import HeapScript.Proofs.Machine.Variables
import HeapScript.Proofs.Program.Printing
import HeapScript.Proofs.Value.Accepts

/-!
# What slots for references accept

A slot for references looks at the type of what a reference leads to, and takes `null` for
it if that is nothing.

* `expectReference_ok_iff`: the reference leads to data that fits, or it leads nowhere and
  the declared type accepts `null`.
* `ref_slots_accept_live`: what is declared with another type is given live data, as a
  variable, a parameter, a member or a result.
* `dead_reference_declared`: as an `obj` a reference to a freed chunk is accepted.
-/

namespace HeapScript

namespace Machine

variable {m : Machine} {t : Ty} {v w : Value}

/-- The value is a reference, and the chain that starts with it ends at data that the type
accepts. -/
def RefersTo (m : Machine) (t : Ty) (v : Value) : Prop :=
  ∃ index last data, v = .ref index ∧ m.heap.terminal index = .ok last ∧
    m.heap.deref last = .ok data ∧ ¬data.IsRef ∧ t.accepts data.type

/-- The value is a reference, and the chain that starts with it leads to no data. -/
def RefersNowhere (m : Machine) (v : Value) : Prop :=
  ∃ index e, v = .ref index ∧ m.heap.terminal index = .error e

theorem accepts_typeOf_ref_iff {index : Nat} : t.accepts (m.heap.typeOf (.ref index)) ↔
    m.RefersTo t (.ref index) ∨
      m.RefersNowhere (.ref index) ∧ t.accepts (.named "null") := by
  cases hl : m.heap.terminal index with
  | ok last =>
    obtain ⟨data, hdata, hne⟩ := Heap.terminal_eq_ok hl
    have hleads := Heap.terminal_eq_ok_iff.1 hl
    have hnot : ¬data.IsRef := by
      rintro ⟨k, hk⟩
      exact hne k hk
    rw [Heap.typeOf_of_leads hleads hdata]
    constructor
    · intro ha
      exact .inl ⟨index, last, data, rfl, hl, hdata, hnot, ha⟩
    · rintro (⟨_, _, _, ⟨⟩, hl', hdata', -, ha⟩ | ⟨⟨_, e, ⟨⟩, he⟩, -⟩)
      · rw [hl] at hl'
        cases hl'
        rw [hdata] at hdata'
        cases hdata'
        exact ha
      · rw [hl] at he
        cases he
  | error e =>
    have hnone (k : Nat) : ¬m.heap.Leads index k := by
      intro hk
      rw [Heap.terminal_eq_ok_iff.2 hk] at hl
      cases hl
    rw [Heap.typeOf_of_not_leads hnone]
    constructor
    · intro ha
      exact .inr ⟨⟨index, e, rfl, hl⟩, ha⟩
    · rintro (⟨_, _, _, ⟨⟩, hl', -⟩ | ⟨-, ha⟩)
      · rw [hl] at hl'
        cases hl'
      · exact ha

/-- A slot for references takes a reference to data that fits its type, and one that leads
nowhere if the type accepts `null`. -/
theorem expectReference_ok_iff {use : RefUse} : m.expectReference t use v = .ok w ↔
    w = v ∧ (m.RefersTo t v ∨ m.RefersNowhere v ∧ t.accepts (.named "null")) := by
  constructor
  · intro h
    obtain ⟨rfl, ⟨index, rfl⟩, ha⟩ := expectReference_eq_ok h
    exact ⟨rfl, accepts_typeOf_ref_iff.1 ha⟩
  · rintro ⟨rfl, h⟩
    obtain ⟨index, rfl⟩ : w.IsRef := by
      rcases h with ⟨index, _, _, rfl, -⟩ | ⟨⟨index, _, rfl, -⟩, -⟩ <;> exact ⟨index, rfl⟩
    exact if_pos (accepts_typeOf_ref_iff.2 h)

theorem refersTo_of_accepts (ht : ¬t.accepts (.named "null")) (hv : v.IsRef)
    (ha : t.accepts (m.heap.typeOf v)) : m.RefersTo t v := by
  obtain ⟨index, rfl⟩ := hv
  rcases accepts_typeOf_ref_iff.1 ha with hto | ⟨-, hnull⟩
  · exact hto
  · exact absurd hnull ht

theorem refersTo_of_expectReference {use : RefUse} (ht : ¬t.accepts (.named "null"))
    (h : m.expectReference t use v = .ok w) : m.RefersTo t w := by
  obtain ⟨rfl, hr, ha⟩ := expectReference_eq_ok h
  exact refersTo_of_accepts ht hr ha

end Machine

namespace Evaluator

open Exec

variable {E : Evaluator Expr} {m m' : Machine} {ty : Ty} {name : String} {init : Option Expr}
  {v : Value}

/-- What a declaration of a reference is given passes the check of the slot. -/
theorem declared_ref {flags : DeclFlags} (href : flags.isRef = true)
    (h : E.declared flags ty name init m = .ok v m') :
    ∃ x, m'.expectReference ty (.declaration name) x = .ok v := by
  cases init with
  | none =>
    rw [declared, if_pos href, check_ok_iff] at h
    obtain ⟨h, rfl⟩ := h
    exact ⟨_, h⟩
  | some e =>
    obtain ⟨x, m₁, -, h⟩ := bind_ok_iff.1 h
    obtain ⟨h, rfl⟩ := check_ok_iff.1 h
    rw [if_pos href] at h
    exact ⟨x, h⟩

/-- A declaration without `alloc` binds what it is given. -/
theorem declaration_direct {flags : DeclFlags} (halloc : flags.isAlloc = false)
    (h : E.declaration flags ty name init m = .ok () m') :
    ∃ v m₁, E.declared flags ty name init m = .ok v m₁ ∧
      m' = m₁.declare name { ty, value := v, isConst := flags.isConst } := by
  obtain ⟨v, m₁, hv, h⟩ := bind_ok_iff.1 h
  cases h
  exact ⟨v, m₁, hv, by rw [halloc]; rfl⟩

/-- The result of a function is held to its declared result last. -/
theorem callFunction_result {f : FunctionValue} {invokedAs : Option String} {args : List Expr}
    (h : E.callFunction f invokedAs args m = .ok v m') :
    ∃ x, m'.checkReturn f.definition (f.callName invokedAs) x = .ok v := by
  rw [callFunction] at h
  -- the number of arguments
  split at h
  · cases h
  -- the limit of the depth
  obtain ⟨_, _, ⟨⟩, h⟩ := bind_ok_iff.1 h
  obtain ⟨_, _, ⟨⟩, h⟩ := bind_ok_iff.1 h
  split at h
  · cases h
  -- the arguments, the frame of the caller and the body
  obtain ⟨_, _, -, h⟩ := bind_ok_iff.1 h
  obtain ⟨_, _, -, h⟩ := bind_ok_iff.1 h
  obtain ⟨x, _, -, h⟩ := bind_ok_iff.1 h
  obtain ⟨h, rfl⟩ := check_ok_iff.1 h
  exact ⟨x, h⟩

end Evaluator

open Machine in
/-- A slot that is declared with a type other than `var`, `obj` and `null` is given a reference
to live data of a type that fits, whatever the machine: by the check itself, by a declaration,
as a parameter or a member, by an assignment and by the result of a function. -/
theorem ref_slots_accept_live {t : Ty} (hvar : t ≠ .var) (hobj : t ≠ .obj)
    (hnull : t ≠ .named "null") :
    (∀ (m : Machine) use v w, m.expectReference t use v = .ok w → w = v ∧ m.RefersTo t v) ∧
    (∀ n (flags : DeclFlags) name init line flow m m', flags.isRef = true →
      flags.isAlloc = false →
      (evaluator n).stmt (.decl flags t name init line) m = .ok flow m' →
      ∃ v, m'.frames.current.get? name = some ⟨t, v, flags.isConst⟩ ∧ m'.RefersTo t v) ∧
    (∀ (m : Machine) use (p : Param) v w, p.isRef = true → p.ty = t →
      m.checkSlot use p v = .ok w → m.RefersTo t w) ∧
    (∀ (m m' : Machine) p slot op v w, m.locate p = .ok slot → slot.holdsRef = true →
      slot.declared = t → Exec.assign p op v m = .ok w m' → m.RefersTo t w) ∧
    (∀ n (f : FunctionValue) invokedAs args v m m', f.definition.returnsRef = true →
      f.definition.returnType = t →
      (evaluator n).callFunction f invokedAs args m = .ok v m' → m'.RefersTo t v) := by
  have ht : ¬t.accepts (.named "null") := by
    rw [Ty.accepts_null_iff]
    rintro (h | h | h)
    · exact hvar h
    · exact hobj h
    · exact hnull h
  refine ⟨fun m use v w h => ?_, fun n flags name init line flow m m' href halloc h => ?_,
    fun m use p v w href hty h => ?_, fun m m' p slot op v w hslot href hty h => ?_,
    fun n f invokedAs args v m m' href hty h => ?_⟩
  · obtain rfl := (expectReference_eq_ok h).1
    exact ⟨rfl, refersTo_of_expectReference ht h⟩
  · cases n with
    | zero => cases h
    | succ n =>
      obtain ⟨_, _, ⟨⟩, h⟩ := Exec.bind_ok_iff.1 h
      obtain ⟨_, _, h, hflow⟩ := Exec.bind_ok_iff.1 (Exec.located_ok_iff.1 h)
      cases hflow
      obtain ⟨v, m₁, hv, rfl⟩ := Evaluator.declaration_direct halloc h
      obtain ⟨x, hx⟩ := Evaluator.declared_ref href hv
      refine ⟨v, ?_, refersTo_of_expectReference ht hx⟩
      rw [Machine.declare, Machine.current_modifyFrame, Frame.get?_declare, if_pos rfl]
  · rw [Machine.checkSlot, if_pos href, hty] at h
    exact refersTo_of_expectReference ht h
  · obtain ⟨slot', hslot', hw, -⟩ := Exec.assign_ok_iff.1 h
    rw [hslot] at hslot'
    cases hslot'
    obtain ⟨_, -, hstored, -⟩ := assignedValue_eq_ok hw
    obtain ⟨-, hr, ha⟩ := hstored href
    rw [hty] at ha
    exact refersTo_of_accepts ht hr ha
  · obtain ⟨x, hx⟩ := Evaluator.callFunction_result h
    rw [Machine.checkReturn, if_pos href, hty] at hx
    exact refersTo_of_expectReference ht hx

/-- The statements `alloc int n = 1;` and `ref int r = n;`. -/
def shared : Stmt × Stmt :=
  (.decl { isAlloc := true } .int "n" (some ((Tree.num 1).lower 1)) 1,
    .decl { isRef := true } .int "r" (some ((Tree.ident "n").lower 1)) 1)

/-- After them `r` refers to live data that is an `int`. -/
theorem ref_slots_accept_live_shared :
    ∃ m m' v, (evaluator 5).stmt shared.1 (Machine.create {} .builtin .silent {}) = .ok .normal m ∧
      (evaluator 5).stmt shared.2 m = .ok .normal m' ∧
      m'.frames.current.get? "r" = some ⟨.int, v, false⟩ ∧ m'.RefersTo .int v := by
  have hrun : ∃ m m',
      (evaluator 5).stmt shared.1 (Machine.create {} .builtin .silent {}) = .ok .normal m ∧
        (evaluator 5).stmt shared.2 m = .ok .normal m' := ⟨_, _, rfl, rfl⟩
  obtain ⟨m, m', hm, hm'⟩ := hrun
  have hlive := ref_slots_accept_live (t := .int) (by decide) (by decide) (by decide)
  obtain ⟨v, hv, hto⟩ := hlive.2.1 5 { isRef := true } "r" _ 1 _ m m' rfl rfl hm'
  exact ⟨m, m', v, hm, hm', hv, hto⟩

/-! ## A reference that leads nowhere -/

/-- The function `func () -> ref P { alloc P p = P(1); return p; }`. -/
def newPart : FunctionDef where
  params := []
  returnType := .named "P"
  returnsRef := true
  captures := false
  body := .block [
    .decl { isAlloc := true } (.named "P") "p"
      (some ((Tree.call (.ident "P") [.num 1]).lower 1)) 1,
    .returnValue (some ((Tree.ident "p").lower 1)) 1] 1
  line := 1

/-- The function `func (ref obj r, var x) -> ref obj { return r; }`. -/
def firstOf : FunctionDef where
  params := [⟨"r", .obj, true⟩, ⟨"x", .var, false⟩]
  returnType := .obj
  returnsRef := true
  captures := false
  body := .block [.returnValue (some ((Tree.ident "r").lower 1)) 1] 1
  line := 1

/-- The statements `class P { int a; } func f … func keep … ref obj q = keep(f(), collect());`,
where `f` is `newPart` and `keep` is `firstOf`. -/
def outliving : List Stmt :=
  [.classDef ⟨"P", [⟨"a", .int, false⟩], 1⟩ 1,
    .decl { isConst := true } .func "f" (some ((Tree.function newPart).lower 1)) 1,
    .decl { isConst := true } .func "keep" (some ((Tree.function firstOf).lower 1)) 1,
    .decl { isRef := true } .obj "q" (some ((Tree.call (.ident "keep")
      [.call (.ident "f") [], .call (.ident "collect") []]).lower 1)) 1]

/-- A collection that looks for nothing to mark where the roots refer to no chunk. -/
def Heap.collectIdle (h : Heap) (roots : List Value) : Nat × Heap :=
  if (Value.refsAll roots).isEmpty then h.sweep else h.collect roots

-- `mark` is no structural recursion, so a run is evaluated up to its collections only
theorem Heap.collect_eq_collectIdle (h : Heap) (roots : List Value) :
    h.collect roots = h.collectIdle roots := by
  rw [collectIdle]
  split
  · rename_i hr
    rw [Heap.collect, List.isEmpty_iff.1 hr, Heap.mark]
  · rfl

/-- Whether a variable of the top level refers to a chunk that is not in use. -/
def Machine.holdsFreed (m : Machine) (name : String) : Bool :=
  match m.frames.main.get? name with
  | some ⟨_, .ref index, _⟩ => !m.heap.isUsed index
  | _ => false

theorem Machine.exists_of_holdsFreed {m : Machine} {name : String} (h : m.holdsFreed name = true) :
    ∃ x index, m.frames.main.get? name = some x ∧ x.value = .ref index ∧
      m.heap.isUsed index = false := by
  rw [holdsFreed] at h
  split at h
  · rename_i ty index isConst hx
    exact ⟨_, index, hx, rfl, by simpa using h⟩
  · cases h

set_option maxRecDepth 4000 in
/-- The object that `f` makes is freed before `keep` returns the reference to it. The result
of `keep` and the variable `q` are declared `ref obj`, and both take it. -/
theorem dead_reference_declared :
    ∃ (m : Machine) (x : Variable) (index : Nat), m.Reachable ∧
      m.frames.main.get? "q" = some x ∧ x.value = .ref index ∧
      (∃ e, m.heap.deref index = .error e) ∧ (∀ t, ¬m.RefersTo t (.ref index)) ∧
      m.expectReference .obj (.declaration "q") (.ref index) = .ok (.ref index) := by
  have hp : parse "main" (writtenTokens outliving) = .ok ⟨"main", outliving⟩ := rfl
  have hrun : ((Machine.create {} .builtin .silent {}).runWith 20 ⟨"main", outliving⟩).machine?.any
      (fun m => m.holdsFreed "q") = true := by
    simp only [Natives.builtin, Native.memoryNatives, Native.collect, World.collect,
      Heap.collect_eq_collectIdle]
    decide +kernel
  obtain ⟨m, hm, hq⟩ := (Option.any_eq_true _ _).1 hrun
  obtain ⟨x, index, hx, hvalue, hfreed⟩ := Machine.exists_of_holdsFreed hq
  obtain ⟨e, he⟩ := Heap.exists_deref_error (ne_true_of_eq_false hfreed)
  have hl : m.heap.terminal index = .error e := by
    rw [Heap.terminal, Heap.follow, he]
  refine ⟨m, x, index, .run 20 (.create {} .silent {}) hp hm, hx, hvalue, ⟨e, he⟩, ?_, ?_⟩
  · rintro t ⟨_, _, _, ⟨⟩, hl', -⟩
    rw [hl] at hl'
    cases hl'
  · exact Machine.expectReference_ok_iff.2 ⟨rfl, .inr ⟨⟨index, e, rfl, hl⟩, by decide⟩⟩

end HeapScript
