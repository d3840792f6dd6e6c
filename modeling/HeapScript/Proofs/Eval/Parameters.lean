import HeapScript.Eval.Run
import HeapScript.Native.Builtin
import HeapScript.Parser.Statement
import HeapScript.Proofs.Machine.Outcome
import HeapScript.Proofs.Machine.Variables
import HeapScript.Proofs.Program.Printing

/-!
# What a called function sees of its arguments

The frame in which the body of a function starts is filled from four sources: the
parameters, the name that the function was invoked by, its receiver, and the variables
of the caller if it captures them.

* `get?_calleeFrame_param`: no captured variable and no other parameter hides a parameter;
  what could are the name of the call and `this`.
* `params_reach_body`: a call whose arguments pass their checks runs the body in a frame
  where every parameter holds its argument, unless the function is invoked by the name
  of a parameter.
* `param_hidden_by_alias` is what happens then.
-/

namespace HeapScript

namespace Frame

variable {f : Frame} {vars : List (String × Variable)} {k : String}

theorem declareAll_append (f : Frame) (vars more : List (String × Variable)) :
    f.declareAll (vars ++ more) = (f.declareAll vars).declareAll more :=
  List.foldl_append

theorem get?_declareAll_of_notMem (h : k ∉ vars.map Prod.fst) :
    (f.declareAll vars).get? k = f.get? k := by
  induction vars generalizing f with
  | nil => rfl
  | cons p vars ih =>
    rw [List.map_cons, List.mem_cons, not_or] at h
    rw [declareAll, List.foldl_cons]
    exact (ih h.2).trans (by rw [get?_declare, if_neg h.1])

end Frame

/-! ## The four sources -/

section Sources

variable {ps : List Param} {values : List Value} {k : String} {i : Nat} {p : Param} {v : Value}

theorem mem_names_of_boundParams (h : k ∈ (boundParams ps values).map Prod.fst) :
    k ∈ ps.map Param.name := by
  obtain ⟨b, hb, rfl⟩ := List.mem_map.1 h
  obtain ⟨i, hi, rfl⟩ := List.mem_iff_getElem.1 hb
  simp only [boundParams, List.getElem_zipWith]
  exact List.mem_map_of_mem (List.getElem_mem _)

theorem mem_names_ownVars {f : FunctionValue} {invokedAs : Option String}
    (h : k ∈ (ownVars f invokedAs).map Prod.fst) : k ∈ invokedAs ∨ k = "this" := by
  obtain ⟨b, hb, rfl⟩ := List.mem_map.1 h
  rcases List.mem_append.1 hb with hb | hb
  · obtain ⟨invoked, hi, rfl⟩ := Option.map_eq_some_iff.1 (Option.mem_toList.1 hb)
    exact .inl hi
  · obtain ⟨index, -, rfl⟩ := Option.map_eq_some_iff.1 (Option.mem_toList.1 hb)
    exact .inr rfl

theorem notMem_names_capturedVars {caller : Frame} {invokedAs : Option String} (hp : p ∈ ps) :
    p.name ∉ (capturedVars caller invokedAs ps).map Prod.fst := by
  intro h
  obtain ⟨b, hb, hname⟩ := List.mem_map.1 h
  have hb := (List.mem_filter.1 hb).2
  simp only [Bool.and_eq_true, Bool.not_eq_true', List.any_eq_false] at hb
  exact hb.2 p hp (by simp [hname])

/-- Of several parameters with different names, each is bound to its own value. -/
theorem Frame.get?_declareAll_boundParams {f : Frame} (hdistinct : (ps.map Param.name).Nodup)
    (hp : ps[i]? = some p) (hv : values[i]? = some v) :
    (f.declareAll (boundParams ps values)).get? p.name = some { ty := p.ty, value := v } := by
  induction ps generalizing f values i with
  | nil => cases hp
  | cons q ps ih =>
    obtain ⟨hq, hdistinct⟩ := List.nodup_cons.1 hdistinct
    cases values with
    | nil => cases hv
    | cons w values =>
      cases i with
      | zero =>
        cases hp
        cases hv
        have hlater : p.name ∉ (boundParams ps values).map Prod.fst :=
          fun h => hq (mem_names_of_boundParams h)
        exact (get?_declareAll_of_notMem hlater).trans (by rw [get?_declare, if_pos rfl])
      | succ i => exact ih hdistinct hp hv

/-- A parameter holds its argument in the frame in which the body starts. -/
theorem get?_calleeFrame_param {f : FunctionValue} {invokedAs : Option String} (name : String)
    (caller : Frame) (hdistinct : (f.definition.params.map Param.name).Nodup)
    (hthis : "this" ∉ f.definition.params.map Param.name)
    (hinvoked : ∀ x ∈ invokedAs, x ∉ f.definition.params.map Param.name)
    (hp : f.definition.params[i]? = some p) (hv : values[i]? = some v) :
    (calleeFrame f invokedAs name values caller).get? p.name =
      some { ty := p.ty, value := v } := by
  have hmem : p ∈ f.definition.params := List.mem_of_getElem? hp
  have hname : p.name ∈ f.definition.params.map Param.name := List.mem_map_of_mem hmem
  have hown : p.name ∉ (ownVars f invokedAs).map Prod.fst := by
    intro h
    rcases mem_names_ownVars h with h | h
    · exact hinvoked _ h hname
    · exact hthis (h ▸ hname)
  have hcaptured : p.name ∉ (if f.definition.captures then
      capturedVars caller invokedAs f.definition.params else []).map Prod.fst := by
    split
    · exact notMem_names_capturedVars hmem
    · exact List.not_mem_nil
  rw [calleeFrame, Frame.declareAll_append, Frame.declareAll_append,
    Frame.get?_declareAll_of_notMem hcaptured, Frame.get?_declareAll_of_notMem hown]
  exact Frame.get?_declareAll_boundParams hdistinct hp hv

end Sources

/-! ## Calls -/

namespace Evaluator

variable {ε : Type} {E : Evaluator ε} {callee : Value} {f : FunctionValue} {args : List ε}
  {values : List Value} {m m₁ : Machine}

theorem length_slotValues {use : String → RefUse} {ps : List Param}
    (h : E.slotValues use ps args m = .ok values m₁) (hlength : args.length = ps.length) :
    values.length = ps.length := by
  induction ps generalizing args values m m₁ with
  | nil =>
    rw [slotValues.eq_2 _ _ _ _ (by rintro _ _ _ _ ⟨⟩)] at h
    rw [← (Exec.pure_ok_iff.1 h).1]
    rfl
  | cons p ps ih =>
    cases args with
    | nil => cases hlength
    | cons a args =>
      rw [slotValues] at h
      obtain ⟨v, m₂, -, h⟩ := Exec.bind_ok_iff.1 h
      obtain ⟨v', m₃, -, h⟩ := Exec.bind_ok_iff.1 h
      obtain ⟨vs, m₄, hvs, h⟩ := Exec.bind_ok_iff.1 h
      rw [← (Exec.pure_ok_iff.1 h).1, List.length_cons, List.length_cons,
        ih hvs (Nat.succ.inj hlength)]

/-- A callee that stands for data is no native function. -/
theorem native?_of_resolve {data : Value} (h : m.resolve callee = .ok data) :
    native? m callee = none := by
  cases callee with
  | ident name =>
    obtain ⟨v, hv, -⟩ := bind_eq_ok.1 h
    rw [Machine.stored, Machine.lookupValue] at hv
    cases hx : m.frames.lookup name with
    | none =>
      rw [hx] at hv
      cases hv
    | some x => rw [native?, hx]
  | _ => rfl

theorem call_function (hf : m.resolve callee = .ok (.function f)) :
    E.call callee args m = E.callFunction f (invokedName? callee) args m := by
  simp only [call, Exec.bind_apply, Exec.read, Exec.check, native?_of_resolve hf, hf]

/-- A call that passes its checks is the body in the frame of the callee. -/
theorem callFunction_body {invokedAs : Option String}
    (hlength : args.length = f.definition.params.length)
    (hdepth : m.frames.depth < m.config.maxCallDepth)
    (hvalues : E.slotValues .parameter f.definition.params args m = .ok values m₁) :
    E.callFunction f invokedAs args m = (do
      let result ← E.runBody
        (calleeFrame f invokedAs (f.callName invokedAs) values m₁.frames.current) f.definition.body
      Exec.check fun m => m.checkReturn f.definition (f.callName invokedAs) result) m₁ := by
  simp only [callFunction, hlength, ne_eq, not_true_eq_false, if_false, Nat.not_le.2 hdepth,
    Exec.bind_apply, Exec.read, hvalues]

end Evaluator

open Evaluator in
/-- If all arguments of a function are evaluated and pass their checks, the body runs in a
frame where each parameter is a variable that holds its argument, whether or not the
function captures and whatever it is called through, other than the name of a parameter. -/
theorem params_reach_body {ε : Type} {E : Evaluator ε} {callee : Value} {f : FunctionValue}
    {args : List ε} {values : List Value} {m m₁ : Machine}
    (hf : m.resolve callee = .ok (.function f))
    (hlength : args.length = f.definition.params.length)
    (hdepth : m.frames.depth < m.config.maxCallDepth)
    (hvalues : E.slotValues .parameter f.definition.params args m = .ok values m₁)
    (hdistinct : (f.definition.params.map Param.name).Nodup)
    (hthis : "this" ∉ f.definition.params.map Param.name)
    (hinvoked : ∀ x ∈ invokedName? callee, x ∉ f.definition.params.map Param.name) :
    ∃ frame : Frame,
      E.call callee args m = (do
        let result ← E.runBody frame f.definition.body
        Exec.check fun m =>
          m.checkReturn f.definition (f.callName (invokedName? callee)) result) m₁ ∧
      ∀ (i : Nat) (p : Param), f.definition.params[i]? = some p → ∃ v, values[i]? = some v ∧
        frame.get? p.name = some { ty := p.ty, value := v, isConst := false } := by
  refine ⟨_, (call_function hf).trans (callFunction_body hlength hdepth hvalues), ?_⟩
  intro i p hp
  have hi : i < values.length := by
    rw [length_slotValues hvalues hlength]
    exact (List.getElem?_eq_some_iff.1 hp).1
  have hv : values[i]? = some values[i] := List.getElem?_eq_getElem hi
  exact ⟨values[i], hv, get?_calleeFrame_param _ _ hdistinct hthis hinvoked hp hv⟩

/-- The function `closure func (int v, ref obj r) ;`. -/
def overlapping : FunctionDef where
  params := [⟨"v", .int, false⟩, ⟨"r", .obj, true⟩]
  returnType := .var
  returnsRef := false
  captures := true
  body := .nop 1
  line := 1

/-- A machine where `id` is `overlapping`, bound to the first chunk, and where `v` and `r` are
variables too. -/
def overlapped : Machine :=
  { Machine.create {} .builtin .silent {} with
    heap := { chunks := #[⟨.object "C" [] [], true, false⟩] }
    frames.main := Frame.topLevel.declareAll [
      ("id", ⟨.func, .function { definition := overlapping, receiver := some 0 }, true⟩),
      ("v", ⟨.int, .num 100, false⟩), ("r", ⟨.obj, .ref 0, false⟩)] }

/-- The arguments of `id(7, r)`. -/
def overlappingArgs : List Expr :=
  [(Tree.num 7).lower 1, (Tree.ident "r").lower 1]

/-- The variables of the caller have the names of the parameters. -/
theorem params_reach_body_overlapping :
    ∃ frame : Frame,
      (evaluator 3).call (.ident "id") overlappingArgs overlapped = (do
        let result ← (evaluator 3).runBody frame (.nop 1)
        Exec.check fun m => m.checkReturn overlapping "id" result) overlapped ∧
      frame.get? "v" = some ⟨.int, .num 7, false⟩ ∧
      frame.get? "r" = some ⟨.obj, .ref 0, false⟩ := by
  have hlength : overlappingArgs.length = overlapping.params.length := rfl
  have hvalues : (evaluator 3).slotValues .parameter overlapping.params overlappingArgs
      overlapped = .ok [.num 7, .ref 0] overlapped := rfl
  have hid : overlapped.resolve (.ident "id") =
      .ok (.function { definition := overlapping, receiver := some 0 }) := rfl
  obtain ⟨frame, hcall, hparams⟩ := params_reach_body hid hlength (by decide) hvalues
    (by decide) (by decide) (by rintro _ ⟨⟩; decide)
  refine ⟨frame, hcall, ?_, ?_⟩
  · obtain ⟨v, hv, hget⟩ := hparams 0 _ rfl
    cases hv
    exact hget
  · obtain ⟨v, hv, hget⟩ := hparams 1 _ rfl
    cases hv
    exact hget

/-! ## A function that is called by the name of its parameter -/

/-- The function `func (int n) -> var { return n; }`. -/
def given : FunctionDef where
  params := [⟨"n", .int, false⟩]
  returnType := .var
  returnsRef := false
  captures := false
  body := .block [.returnValue (some ((Tree.ident "n").lower 1)) 1] 1
  line := 1

/-- The statements `func f … var a = f(7); var n = f; var b = n(7);`, where `f` is `given`. -/
def aliasing : List Stmt :=
  [.decl { isConst := true } .func "f" (some ((Tree.function given).lower 1)) 1,
    .decl {} .var "a" (some ((Tree.call (.ident "f") [.num 7]).lower 1)) 1,
    .decl {} .var "n" (some ((Tree.ident "f").lower 1)) 1,
    .decl {} .var "b" (some ((Tree.call (.ident "n") [.num 7]).lower 1)) 1]

/-- The same function is called with the same argument, but by the name of its parameter.
There the parameter is the function and the argument is lost. -/
theorem param_hidden_by_alias :
    ∃ m, parse "main" (writtenTokens aliasing) = .ok ⟨"main", aliasing⟩ ∧
      (Machine.create {} .builtin .silent {}).runWith 20 ⟨"main", aliasing⟩ = .ok () m ∧
      m.frames.main.get? "a" = some ⟨.var, .num 7, false⟩ ∧
      m.frames.main.get? "b" = some ⟨.var, .function { definition := given }, false⟩ :=
  ⟨_, rfl, rfl, rfl, rfl⟩

end HeapScript
