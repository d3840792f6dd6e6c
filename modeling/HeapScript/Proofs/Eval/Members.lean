import HeapScript.Proofs.Law.RefSlots
import HeapScript.Proofs.Program.Check
import HeapScript.Proofs.Program.Printing

/-!
# Members and references

* `members_keep_flags`: in every object that is stored, at every depth, a member is a
  reference if and only if its slot is declared `ref`. The exception are slots without
  `ref` whose name some `ref` member has.
* `members_mix_flags`: such a slot can hold a reference. An assignment looks its slot up
  twice, before and after it evaluates its right side, and the object there may be one of
  another class the second time.
-/

namespace HeapScript

/-- The classes of the program have only member slots of which the property holds. -/
def Program.MembersIn (Q : Param → Prop) (p : Program) : Prop :=
  ∀ c line, p.Contains (.classDef c line) → ∀ q ∈ c.members, Q q

/-- The chunks for references that the program allocates are declared with types of which
the property holds. -/
def Program.ChainsIn (C : Ty → Prop) (p : Program) : Prop :=
  ∀ flags ty name init line, p.Contains (.decl flags ty name init line) →
    flags.isAlloc = true → flags.isRef = true → C ty

/-- What is known of the slots of programs if types do not matter, but of chunks for
references. -/
def RefSlots.ofMembers (Q : Param → Prop) (C : Ty → Prop) : RefSlots where
  Types _ := True
  Chains := C
  Members := Q
  Classes _ := True
  shared _ _ _ _ := trivial

theorem RefSlots.admits_ofMembers {Q : Param → Prop} {C : Ty → Prop} {p : Program}
    (hp : p.MembersIn Q) (hc : p.ChainsIn C) : (ofMembers Q C).Admits p := by
  refine ⟨fun e _ => ⟨fun _ _ _ => trivial, fun _ => trivial⟩, fun t ht => ?_⟩
  cases t with
  | decl flags ty name init line => exact ⟨fun _ => trivial, hc flags ty name init line ht⟩
  | classDef c line => exact ⟨trivial, hp c line ht⟩
  | _ => trivial

namespace Machine

/-- In every object that a machine stores, at every depth, a member is a reference if and
only if its slot is declared `ref`, unless the slot is not and has the name of a `ref`
member. Such a member is one of a class of the programs that were run. -/
theorem members_keep_flags {Q : Param → Prop} {m : Machine}
    (hm : m.ReachableBy (Program.MembersIn Q)) {v : Value} (hv : m.Stores v) :
    v.Every fun x => ∀ className layout members, x = .object className layout members →
      List.Forall₂ (fun p w => p.isRef = true ∨ ¬p.SharesRef Q → (w.IsRef ↔ p.isRef = true))
        layout members := by
  have hinv : (RefSlots.ofMembers Q fun _ => True).trait.Inv m := by
    refine Trait.inv_of_reachableBy (fun p hp => ?_) hm
    have hadmits := RefSlots.admits_ofMembers hp fun _ _ _ _ _ _ _ _ => trivial
    exact Program.within hadmits.exprs hadmits.stmts
  refine (hinv.stores hv).imp ?_
  rintro _ hx className layout members rfl
  refine hx.2.imp fun p w hw hp => ⟨fun hr => ?_, hw.ref⟩
  exact hp.resolve_right (absurd (hw.shared hr))

end Machine

/-! ## Members of two kinds -/

/-- The statements `class C { ref int p; int q; } alloc int n = 1; C o = C(n, n);`. -/
def twoKinds : List Stmt :=
  [.classDef ⟨"C", [⟨"p", .int, true⟩, ⟨"q", .int, false⟩], 1⟩ 1,
    .decl { isAlloc := true } .int "n" (some ((Tree.num 1).lower 1)) 1,
    .decl {} (.named "C") "o" (some ((Tree.call (.ident "C") [.ident "n", .ident "n"]).lower 1)) 1]

/-- The same variable is passed on as a reference and as a copy. -/
theorem members_keep_flags_twoKinds :
    ∃ (m : Machine) (Q : Param → Prop), m.ReachableBy (Program.MembersIn Q) ∧
      m.Stores (.object "C" [⟨"p", .int, true⟩, ⟨"q", .int, false⟩] [.ref 0, .num 1]) ∧
      List.Forall₂
        (fun (p : Param) (w : Value) =>
          p.isRef = true ∨ ¬p.SharesRef Q → (w.IsRef ↔ p.isRef = true))
        [⟨"p", .int, true⟩, ⟨"q", .int, false⟩] [.ref 0, .num 1] ∧
      ¬Param.SharesRef Q ⟨"q", .int, false⟩ := by
  have hrun : ∃ m, parse "main" (writtenTokens twoKinds) = .ok ⟨"main", twoKinds⟩ ∧
      (Machine.create {} .builtin .silent {}).runWith 20 ⟨"main", twoKinds⟩ = .ok () m ∧
      m.frames.main.vars[0]? = some ("o", ⟨.named "C",
        .object "C" [⟨"p", .int, true⟩, ⟨"q", .int, false⟩] [.ref 0, .num 1], false⟩) :=
    ⟨_, rfl, rfl, rfl⟩
  obtain ⟨m, hp, hrun, ho⟩ := hrun
  have hcheck : Program.check ⟨"main", twoKinds⟩ (fun _ => true) (fun
      | .classDef c _ => c.members.all fun q => q.isRef == (q.name == "p")
      | _ => true) = true := rfl
  have hmembers : Program.MembersIn (fun q => q.isRef = (q.name == "p")) ⟨"main", twoKinds⟩ :=
    fun c line hc q hq => beq_iff_eq.1
      (List.all_eq_true.1 (Program.contains_of_check hcheck hc) q hq)
  have hm : m.ReachableBy (Program.MembersIn fun q => q.isRef = (q.name == "p")) :=
    .run 20 (.create {} .silent {}) hp hmembers (by rw [hrun]; rfl)
  have ho : m.Stores _ := .var m.frames.main_mem_frames (List.mem_of_getElem? ho)
  refine ⟨m, _, hm, ho, Machine.members_keep_flags hm ho _ (.self _) _ _ _ rfl, ?_⟩
  rintro ⟨q, hq, hname, hr⟩
  rw [hr, hname] at hq
  cases hq

/-! ## An object of another class -/

/-- The function `func (var b, ref int r) -> ref int { return r; }`. -/
def secondOf : FunctionDef where
  params := [⟨"b", .var, false⟩, ⟨"r", .int, true⟩]
  returnType := .int
  returnsRef := true
  captures := false
  body := .block [.returnValue (some ((Tree.ident "r").lower 1)) 1] 1
  line := 1

/-- The statements `class A { ref int p; } class B { int p; } alloc int n = 1;
var v = A(n); func g … v.p = g(v = B(2), n);`, where `g` is `secondOf`. -/
def exchange : List Stmt :=
  [.classDef ⟨"A", [⟨"p", .int, true⟩], 1⟩ 1,
    .classDef ⟨"B", [⟨"p", .int, false⟩], 1⟩ 1,
    .decl { isAlloc := true } .int "n" (some ((Tree.num 1).lower 1)) 1,
    .decl {} .var "v" (some ((Tree.call (.ident "A") [.ident "n"]).lower 1)) 1,
    .decl { isConst := true } .func "g" (some ((Tree.function secondOf).lower 1)) 1,
    .setMember ((Tree.ident "v").lower 1) "p" .assign
      ((Tree.call (.ident "g")
        [.assign .assign (.ident "v") (.call (.ident "B") [.num 2]), .ident "n"]).lower 1) 1]

set_option maxRecDepth 2000 in
/-- A member can hold a reference although its slot is not declared `ref`. -/
theorem members_mix_flags :
    ∃ m : Machine, m.Reachable ∧ m.Stores (.object "B" [⟨"p", .int, false⟩] [.ref 0]) := by
  have hrun : ∃ m, parse "main" (writtenTokens exchange) = .ok ⟨"main", exchange⟩ ∧
      (Machine.create {} .builtin .silent {}).runWith 20 ⟨"main", exchange⟩ = .ok () m ∧
      m.frames.main.vars[1]? =
        some ("v", ⟨.var, .object "B" [⟨"p", .int, false⟩] [.ref 0], false⟩) :=
    ⟨_, rfl, rfl, rfl⟩
  obtain ⟨m, hp, hrun, hv⟩ := hrun
  refine ⟨m, .run 20 (.create {} .silent {}) hp (by rw [hrun]; rfl), ?_⟩
  exact .var m.frames.main_mem_frames (List.mem_of_getElem? hv)

end HeapScript
