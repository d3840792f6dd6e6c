import HeapScript.Proofs.Eval.Members
import HeapScript.Proofs.Law.Aliasing

/-!
# Chains of references end

* `chains_end`: no chain of references on the heap is cyclic, so following one ends, and
  so does looking at the type of a value. Members with one name have to hold references
  all or none. Collections may take place at any time if no chunk for references is
  declared with a type that accepts a reference to nothing, and else between runs.
* `chain_closes`: an object with a member that holds a reference although it is not
  declared `ref` can be used to make a chunk refer to itself.
-/

namespace HeapScript

namespace Machine

/-- On every machine that programs reach whose members with one name hold references all
or none, following references from any chunk ends at data, or fails since that chunk is
not in use; and looking at the type of a value ends, with the type that `typeOf` gives. -/
theorem chains_end {Q : Param → Prop}
    (hQ : ∀ p q, Q p → Q q → q.name = p.name → q.isRef = p.isRef) {m : Machine}
    (hm : (m.ReachableBy fun p => p.MembersIn Q ∧ p.ChainsIn fun t => ¬t.accepts (.named "null")) ∨
      m.SteadyBy (Program.MembersIn Q)) :
    (∀ i, (∃ k, m.heap.Leads i k ∧ m.heap.terminal i = .ok k) ∨
      ∃ e, m.heap.deref i = .error e ∧ m.heap.terminal i = .error e) ∧
    ∀ v t, m.heap.HasType v t ↔ t = m.heap.typeOf v := by
  have hg : m.heap.Grounded := by
    rcases hm with hm | hm
    · have hinv := RefSlots.inv_of_reachableBy (S := .ofMembers Q _)
        (hm.mono fun p hp => RefSlots.admits_ofMembers hp.1 hp.2)
      exact hinv.grounded (.inl ⟨hQ, fun t ht => ht⟩)
    · have hinv := RefSlots.inv_of_steadyBy (S := .ofMembers Q fun _ => True)
        (hm.mono fun p hp => RefSlots.admits_ofMembers hp fun _ _ _ _ _ _ _ _ => trivial)
      exact hinv.grounded (.inr ⟨hQ, Nat.le_refl _⟩)
  exact ⟨hg.terminal, fun v t => hg.hasType_iff⟩

end Machine

/-! ## A chain of two references -/

/-- The statements `alloc int n = 1; alloc ref int r = n; alloc ref int q = r;`. -/
def chaining : List Stmt :=
  [.decl { isAlloc := true } .int "n" (some ((Tree.num 1).lower 1)) 1,
    .decl { isAlloc := true, isRef := true } .int "r" (some ((Tree.ident "n").lower 1)) 1,
    .decl { isAlloc := true, isRef := true } .int "q" (some ((Tree.ident "r").lower 1)) 1]

/-- Both chunks for references lead to the first one. -/
theorem chains_end_chaining :
    ∃ (m : Machine) (Q : Param → Prop),
      (m.ReachableBy fun p => p.MembersIn Q ∧ p.ChainsIn fun t => ¬t.accepts (.named "null")) ∧
      m.heap.deref 2 = .ok (.ref 1) ∧
      ((∃ k, m.heap.Leads 2 k ∧ m.heap.terminal 2 = .ok k) ∨
        ∃ e, m.heap.deref 2 = .error e ∧ m.heap.terminal 2 = .error e) ∧
      m.heap.HasType (.ref 2) .int := by
  have hrun : ∃ m, parse "main" (writtenTokens chaining) = .ok ⟨"main", chaining⟩ ∧
      (Machine.create {} .builtin .silent {}).runWith 20 ⟨"main", chaining⟩ = .ok () m ∧
      m.heap.deref 2 = .ok (.ref 1) ∧ m.heap.typeOf (.ref 2) = .int :=
    ⟨_, rfl, rfl, rfl, rfl⟩
  obtain ⟨m, hp, hrun, hd, htype⟩ := hrun
  have hcheck : Program.check ⟨"main", chaining⟩ (fun _ => true) (fun
      | .classDef _ _ => false
      | .decl _ ty _ _ _ => !ty.accepts (.named "null")
      | _ => true) = true := rfl
  have hm : m.ReachableBy fun p =>
      p.MembersIn (fun _ => False) ∧ p.ChainsIn fun t => ¬t.accepts (.named "null") := by
    refine .run 20 (.create {} .silent {}) hp ⟨fun c line hc => ?_, fun _ ty _ _ _ ht _ _ => ?_⟩
      (by rw [hrun]; rfl)
    · cases Program.contains_of_check hcheck hc
    · simpa using Program.contains_of_check hcheck ht
  obtain ⟨hends, htypes⟩ := Machine.chains_end (fun _ _ hp => absurd hp id) (.inl hm)
  exact ⟨m, _, hm, hd, hends 2, (htypes _ _).2 htype.symm⟩

/-! ## A chunk that refers to itself -/

/-- The statements of `exchange` followed by `var w = v; v = A(n); v.p = g(v = w, n);`. -/
def knotting : List Stmt :=
  exchange ++
    [.decl {} .var "w" (some ((Tree.ident "v").lower 1)) 1,
      .expr ((Tree.assign .assign (.ident "v") (.call (.ident "A") [.ident "n"])).lower 1) 1,
      .setMember ((Tree.ident "v").lower 1) "p" .assign
        ((Tree.call (.ident "g")
          [.assign .assign (.ident "v") (.ident "w"), .ident "n"]).lower 1) 1]

set_option maxRecDepth 4000 in
/-- A chunk can come to refer to itself. Looking at the type of a reference to it does
not end, and following it is cut off. -/
theorem chain_closes :
    ∃ m : Machine, m.Reachable ∧ m.heap.deref 0 = .ok (.ref 0) ∧
      m.heap.terminal 0 = .error (.notOnHeap 0) ∧ ∀ t, ¬m.heap.HasType (.ref 0) t := by
  have hp : parse "main" (writtenTokens knotting) = .ok ⟨"main", knotting⟩ := rfl
  have hrun : ((Machine.create {} .builtin .silent {}).runWith 20 ⟨"main", knotting⟩).machine?.any
      (fun m => m.heap.refersToSelf 0) = true := by decide +kernel
  obtain ⟨m, hm, hself⟩ := (Option.any_eq_true _ _).1 hrun
  have hd := Heap.deref_of_refersToSelf hself
  exact ⟨m, .run 20 (.create {} .silent {}) hp hm, hd, Heap.terminal_of_self hd,
    fun t => Heap.not_hasType_of_self hd⟩

end HeapScript
