import HeapScript.Proofs.Eval.Fuel
import HeapScript.Proofs.Eval.Tree
import HeapScript.Proofs.Machine.Outcome
import HeapScript.Proofs.Machine.Overwritten

/-!
# Reading and writing a path

A chain of members and elements is read by operators, one after the other, and written by
a walk along its steps. Both follow references in their own way.

* `SpellsPath` relates the code of a chain to its steps; `value_of_spells` is what reading it
  comes down to, `place_of_spells` the place that it names.
* `Machine.readSteps` takes the steps as the operators do, `Machine.walk` as assignments do.
  `matches_step` compares one step, `matches_walk` all of them, `matches_slot` the ends.
* `reading_agrees_with_writing`: on every sound machine, which takes in those that calls and
  loops run their bodies on, the data that is read is the data in the slot that is written.
-/

namespace HeapScript

/-! ## Checks that agree -/

/-- Both checks find something, and these are related, or both find a fault. -/
inductive Matches {α β : Type} (R : α → β → Prop) : Except Fault α → Except Fault β → Prop
  | ok {a : α} {b : β} : R a b → Matches R (.ok a) (.ok b)
  | error (f g : Fault) : Matches R (.error f) (.error g)

namespace Matches

variable {α β γ δ : Type} {R : α → β → Prop} {S : γ → δ → Prop} {x : Except Fault α}
  {y : Except Fault β}

theorem bind {f : α → Except Fault γ} {g : β → Except Fault δ} (h : Matches R x y)
    (hfg : ∀ a b, x = .ok a → y = .ok b → R a b → Matches S (f a) (g b)) :
    Matches S (x >>= f) (y >>= g) := by
  cases h with
  | ok hab => exact hfg _ _ rfl rfl hab
  | error f g => exact .error f g

theorem of_eq {x : Except Fault α} {R : α → α → Prop} (hR : ∀ a, x = .ok a → R a a) :
    Matches R x x := by
  cases x with
  | ok a => exact .ok (hR a rfl)
  | error f => exact .error f f

theorem exists_right {a : α} (h : Matches R x y) (hx : x = .ok a) : ∃ b, y = .ok b ∧ R a b := by
  cases h with
  | ok hab =>
    cases hx
    exact ⟨_, rfl, hab⟩
  | error f g => cases hx

theorem exists_left {b : β} (h : Matches R x y) (hy : y = .ok b) : ∃ a, x = .ok a ∧ R a b := by
  cases h with
  | ok hab =>
    cases hy
    exact ⟨_, rfl, hab⟩
  | error f g => cases hy

end Matches

/-! ## Taking steps -/

/-- What reading makes of data: a function that is read as a member gets a receiver and
the name of the member. -/
def Value.ReadAs (last : Option Step) (data d : Value) : Prop :=
  d = data ∨ ∃ f receiver name, last = some (.member name) ∧ data = .function f ∧
    d = .function { f with receiver, boundName := some name }

namespace Machine

variable {m : Machine} {v d : Value} {w : Walk} {last : Option Step} {s : Step}

/-- The value of an operand one step further. -/
def readStep (m : Machine) (v : Value) : Step → Except Fault Value
  | .member name => m.member v (.ident name)
  | .index idx => m.element v idx

/-- The value of an operand at the end of a path. -/
def readSteps (m : Machine) (v : Value) : List Step → Except Fault Value
  | [] => .ok v
  | s :: r => do
    let v ← m.readStep v s
    m.readSteps v r

/-- One step of a walk. -/
def walkStep (m : Machine) (w : Walk) (s : Step) : Except Fault Walk := do
  let w ← m.cross w
  let (value, declared, holdsRef) ← w.value.enter s
  return { value, slot := { place := w.slot.place.push s, declared, holdsRef } }

theorem walk_cons (m : Machine) (w : Walk) (s : Step) (r : List Step) :
    m.walk w (s :: r) = m.walkStep w s >>= fun w => m.walk w r := by
  rw [walk, walkStep, bind_assoc]
  refine bind_congr fun w => ?_
  rw [bind_assoc]
  rfl

/-- The operand stands for what the walk has come to. -/
def Shows (m : Machine) (last : Option Step) (v : Value) (w : Walk) : Prop :=
  w.At m ∧ ∃ d, m.stored v = .ok d ∧ w.value.ReadAs last d

theorem stored_of_kept (hv : v.Kept m.heap.capacity) : m.stored v = .ok v := by
  cases v with
  | ident name => exact absurd rfl (hv.ident_ne name)
  | _ => rfl

/-- A walk has come to a value that may be stored. -/
theorem Walk.At.kept (hw : w.At m) (hm : m.Sound) : w.value.Kept m.heap.capacity := by
  obtain ⟨value, rootTy, hroot, hget⟩ := hw
  exact (hm.rootValue hroot).getAt hget

/-- An operator resolves its operand to the data that a walk crosses to. -/
theorem matches_cross (hv : m.Shows last v w) :
    Matches (fun d w' => w'.At m ∧ w'.value.ReadAs last d.1) (m.resolveWithOrigin v)
      (m.cross w) := by
  obtain ⟨hat, d, hd, hread⟩ := hv
  have hcross (w' : Walk) (h : m.cross w = .ok w') : w'.At m := hat.cross h
  rw [resolveWithOrigin, hd]
  rw [cross] at hcross ⊢
  rcases hread with rfl | ⟨f, receiver, name, hlast, hvalue, rfl⟩
  · cases hw : w.value with
    | ref index =>
      rw [hw] at hcross
      cases hl : m.heap.terminal index with
      | error e =>
        simp only [hl, mapError_error, bind, Except.bind]
        exact .error _ _
      | ok l =>
        obtain ⟨data, hdata, -⟩ := Heap.terminal_eq_ok hl
        simp only [hl, hdata, mapError_ok, bind, Except.bind] at hcross ⊢
        exact .ok ⟨hcross _ rfl, .inl rfl⟩
    | _ => exact .ok ⟨hat, .inl hw.symm⟩
  · rw [hvalue]
    exact .ok ⟨hat, .inr ⟨f, receiver, name, hlast, hvalue, rfl⟩⟩

theorem resolve_eq_bind (m : Machine) (v : Value) :
    m.resolve v = m.resolveWithOrigin v >>= fun d => .ok d.1 := by
  rw [resolve, resolveWithOrigin, bind_assoc]
  refine bind_congr fun d => ?_
  cases d with
  | ref index =>
    dsimp only
    rw [deref, Heap.resolve]
    cases m.heap.terminal index with
    | error e => rfl
    | ok last =>
      show (m.heap.deref last).mapError Fault.heap =
        ((m.heap.deref last).mapError Fault.heap >>= fun data => pure (data, some last)) >>= _
      cases m.heap.deref last <;> rfl
  | _ => rfl

theorem matches_resolve (hv : m.Shows last v w) :
    Matches (fun d w' => w'.At m ∧ w'.value.ReadAs last d) (m.resolve v) (m.cross w) := by
  rw [resolve_eq_bind, ← bind_pure (m.cross w)]
  exact .bind (matches_cross hv) fun d w' _ _ h => .ok h

/-- An operator and a walk enter the same part of an object or an array. -/
theorem matches_enter {data d : Value} (h : data.ReadAs last d) (s : Step) :
    Matches (fun p q => p = q) (d.enter s) (data.enter s) := by
  rcases h with rfl | ⟨f, receiver, name, -, rfl, rfl⟩
  · exact .of_eq fun _ _ => rfl
  · cases s <;> exact .error _ _

/-- An operator and a walk take the same step. -/
theorem matches_step (hm : m.Sound) (hv : m.Shows last v w) (s : Step) :
    Matches (m.Shows (some s)) (m.readStep v s) (m.walkStep w s) := by
  -- the part that both enter is stored, so it is no placeholder
  have hnext {d w' part ty holdsRef} (hat : Walk.At m w')
      (he : w'.value.enter s = .ok (part, ty, holdsRef)) (hread : part.ReadAs (some s) d) :
      m.Shows (some s) d ⟨part, ⟨w'.slot.place.push s, ty, holdsRef⟩⟩ := by
    obtain ⟨value, rootTy, hroot, hget⟩ := hat
    have hat' : Walk.At m ⟨part, ⟨w'.slot.place.push s, ty, holdsRef⟩⟩ :=
      ⟨value, rootTy, hroot, Value.getAt_concat hget he⟩
    refine ⟨hat', d, ?_, hread⟩
    rcases hread with rfl | ⟨f, receiver, name, -, -, rfl⟩
    · exact stored_of_kept (hat'.kept hm)
    · rfl
  cases s with
  | member name =>
    rw [readStep, member, walkStep]
    refine .bind (matches_cross hv) fun d w' _ _ hdw => ?_
    obtain ⟨hat, hread⟩ := hdw
    refine .bind (matches_enter hread _) fun p q _ he hpq => ?_
    subst hpq
    obtain ⟨part, ty, holdsRef⟩ := p
    cases part with
    | function f => exact .ok (hnext hat he (.inr ⟨f, _, name, rfl, rfl, rfl⟩))
    | _ => exact .ok (hnext hat he (.inl rfl))
  | index idx =>
    rw [readStep, element, walkStep]
    refine .bind (matches_resolve hv) fun d w' _ _ hdw => ?_
    obtain ⟨hat, hread⟩ := hdw
    refine .bind (matches_enter hread _) fun p q _ he hpq => ?_
    subst hpq
    exact .ok (hnext hat he (.inl rfl))

/-- Operators and a walk come to the same part, step by step. -/
theorem matches_walk (hm : m.Sound) (hv : m.Shows last v w) (path : List Step) :
    Matches (m.Shows (path.getLast?.or last)) (m.readSteps v path) (m.walk w path) := by
  induction path generalizing v w last with
  | nil => exact .ok hv
  | cons s r ih =>
    rw [readSteps, walk_cons, List.getLast?_cons, Option.some_or]
    refine .bind (matches_step hm hv s) fun v' w' _ _ hv' => ?_
    have h := ih hv'
    rwa [Option.or_some] at h

theorem deref_of_not_isRef (hv : ¬v.IsRef) : m.deref v = .ok v := by
  cases v with
  | ref index => exact absurd ⟨index, rfl⟩ hv
  | _ => rfl

/-- The slot that a walk ends at. -/
def slotAt (m : Machine) (w : Walk) : Except Fault Slot :=
  match w.slot.holdsRef, w.value with
  | false, .ref index => do
    let last ← (m.heap.terminal index).mapError .heap
    return { w.slot with place := .chunk last }
  | _, _ => return w.slot

theorem locate_eq_bind (m : Machine) (p : Place) :
    m.locate p = (do
      let (value, declared) ← m.rootValue p.root
      let w ← m.walk
        { value, slot := { place := { root := p.root }, declared, holdsRef := false } } p.path
      m.slotAt w) := rfl

/-- The data in the slot where a walk ends is what the operand stands for. -/
theorem matches_slot (hv : m.Shows last v w) :
    Matches (fun d data => data.ReadAs last d) (m.resolve v)
      (m.slotAt w >>= fun slot => m.readPlace slot.place >>= m.deref) := by
  obtain ⟨⟨value, rootTy, hroot, hget⟩, d, hd, hread⟩ := hv
  have hplace : m.readPlace w.slot.place = .ok w.value := bind_eq_ok.2 ⟨_, hroot, hget⟩
  have hresolve : m.resolve v = m.deref d := by rw [resolve, hd]; rfl
  rw [hresolve]
  rcases hread with rfl | ⟨f, receiver, name, hlast, hvalue, rfl⟩
  · rw [slotAt]
    split
    · -- the reference is followed to find the slot, and then to read it
      rename_i index _ hvalue
      rw [hvalue, deref, Heap.resolve]
      cases hl : m.heap.terminal index with
      | error e => exact .error _ _
      | ok last =>
        obtain ⟨data, hdata, hne⟩ := Heap.terminal_eq_ok hl
        have hnot : ¬data.IsRef := by
          rintro ⟨k, hk⟩
          exact hne k hk
        have hderef : m.deref data = .ok data := deref_of_not_isRef hnot
        have hread : (m.readPlace (.chunk last) >>= m.deref) = .ok data :=
          bind_eq_ok.2 ⟨data, readPlace_chunk hdata, hderef⟩
        show Matches _ ((m.heap.deref last).mapError Fault.heap)
          (m.readPlace (.chunk last) >>= m.deref)
        rw [hread, hdata]
        exact .ok (.inl rfl)
    · show Matches _ (m.deref w.value) (m.readPlace w.slot.place >>= m.deref)
      rw [hplace]
      exact .of_eq fun _ _ => .inl rfl
  · have hslot : m.slotAt w = .ok w.slot := by
      rw [slotAt, hvalue]
      cases w.slot.holdsRef <;> rfl
    show Matches _ (.ok _) (m.slotAt w >>= _)
    rw [hslot]
    show Matches _ (.ok _) (m.readPlace w.slot.place >>= m.deref)
    rw [hplace, hvalue]
    exact .ok (.inr ⟨f, receiver, name, hlast, rfl, rfl⟩)

/-- A chain of steps from a variable leads operators and walks to the same data. -/
theorem matches_chain {name : String} {x : Variable} (hm : m.Sound)
    (hx : m.frames.current.get? name = some x) (hconst : x.isConst = false) (path : List Step) :
    Matches (fun d data => data.ReadAs path.getLast? d)
      (m.readSteps (.ident name) path >>= m.resolve)
      (m.locate { root := .var name, path } >>= fun slot =>
        m.readPlace slot.place >>= m.deref) := by
  have hroot := rootValue_of_get? hx hconst
  have hstored : m.stored (.ident name) = .ok x.value := by
    rw [stored, lookupValue, CallStack.lookup, hx]
  have hstart : m.Shows none (.ident name)
      { value := x.value, slot := { place := .var name, declared := x.ty, holdsRef := false } } :=
    ⟨⟨x.value, x.ty, hroot, rfl⟩, x.value, hstored, .inl rfl⟩
  rw [locate_eq_bind, hroot]
  show Matches _ _ ((m.walk _ path >>= m.slotAt) >>= _)
  rw [bind_assoc]
  refine .bind (matches_walk hm hstart path) fun v w _ _ hv => ?_
  rw [Option.or_none] at hv
  exact matches_slot hv

end Machine

/-! ## The code of a chain -/

/-- The code spells the steps, where the relation tells what an index is evaluated to. -/
inductive SpellsPath (val : Expr → Value → Prop) : List Instr → List Step → Prop
  | nil : SpellsPath val [] []
  | member {name : String} {code : List Instr} {path : List Step} : SpellsPath val code path →
    SpellsPath val (.ident name :: .member :: code) (.member name :: path)
  | index {e : Expr} {v : Value} {code : List Instr} {path : List Step} : val e v →
    SpellsPath val code path → SpellsPath val (.index e :: code) (.index v :: path)

theorem exists_spells {val : Expr → Value → Prop} (code : List Instr) (hcode : isPath code = true)
    (hval : ∀ e, .index e ∈ code → ∃ v, val e v) : ∃ path, SpellsPath val code path := by
  rw [isPath.eq_def] at hcode
  split at hcode
  · exact ⟨[], .nil⟩
  · obtain ⟨path, h⟩ := exists_spells _ hcode fun e he =>
      hval e (List.mem_cons_of_mem _ (List.mem_cons_of_mem _ he))
    exact ⟨_, .member h⟩
  · obtain ⟨v, hv⟩ := hval _ List.mem_cons_self
    obtain ⟨path, h⟩ := exists_spells _ hcode fun e he => hval e (List.mem_cons_of_mem _ he)
    exact ⟨_, .index hv h⟩
  · cases hcode

theorem SpellsPath.imp {val val' : Expr → Value → Prop} {code : List Instr} {path : List Step}
    (h : SpellsPath val code path) (hval : ∀ e v, val e v → val' e v) :
    SpellsPath val' code path := by
  induction h with
  | nil => exact .nil
  | member _ ih => exact .member ih
  | index hv _ ih => exact .index (hval _ _ hv) ih

namespace Evaluator

variable {E : Evaluator Expr} {m : Machine} {code : List Instr} {path : List Step}

theorem steps_of_spells (h : SpellsPath (fun e v => E.value e m = .ok v m) code path) :
    E.steps code m = .ok path m := by
  induction h with
  | nil => rfl
  | member _ ih => rw [steps, Exec.bind_of_ok ih]; rfl
  | index hv _ ih => rw [steps, Exec.bind_of_ok hv, Exec.bind_of_ok ih]; rfl

theorem instrs_of_spells (h : SpellsPath (fun e v => E.value e m = .ok v m) code path)
    (v : Value) :
    E.instrs code [v] m = (do
      let v ← Exec.check fun m => m.readSteps v path
      pure [v] : Exec (List Value)) m := by
  induction h generalizing v with
  | nil => rfl
  | @member name code path _ ih =>
    simp only [instrs_cons, instr, pure_bind, bind_assoc]
    rw [Exec.bind_apply, Exec.bind_apply, Exec.check, Exec.check, Machine.readSteps,
      Machine.readStep]
    cases m.member v (.ident name) with
    | error f => rfl
    | ok v' => exact ih v'
  | @index e i code path hv _ ih =>
    simp only [instrs_cons, instr, bind_assoc, pure_bind]
    rw [Exec.bind_of_ok hv, Exec.bind_apply, Exec.bind_apply, Exec.check, Exec.check,
      Machine.readSteps, Machine.readStep]
    cases m.element v i with
    | error f => rfl
    | ok v' => exact ih v'

end Evaluator

/-! ## Chains from a variable -/

section Chains

variable {m : Machine} {target : Expr} {name : String} {code : List Instr} {path : List Step}

/-- The place that a chain names is its variable with the steps that it spells. -/
theorem place_of_spells {E : Evaluator Expr} (htarget : target.flatten = .ident name :: code)
    (hcode : isPath code = true) (h : SpellsPath (fun e v => E.value e m = .ok v m) code path) :
    E.place target m = .ok { root := .var name, path } m := by
  rw [Evaluator.place, htarget]
  simp only [hcode, if_true]
  rw [Exec.bind_of_ok (Evaluator.steps_of_spells h)]
  rfl

/-- Reading a chain takes its steps from the placeholder of its variable. -/
theorem value_of_spells {n : Nat} (htarget : target.flatten = .ident name :: code)
    (h : SpellsPath (fun e v => (evaluator n).value e m = .ok v m) code path) :
    (evaluator (n + 1)).value target m =
      Exec.check (fun m => m.readSteps (.ident name) path >>= m.resolve) m := by
  have hexpr : (evaluator (n + 1)).expr target m =
      Exec.check (fun m => m.readSteps (.ident name) path) m := by
    show ((evaluator n).instrs target.flatten [] >>= fun stack => pure (stack.headD .void)) m = _
    have hinstrs : (evaluator n).instrs (.ident name :: code) [] m =
        (evaluator n).instrs code [.ident name] m := rfl
    rw [htarget, Exec.bind_apply, hinstrs, Evaluator.instrs_of_spells h, Exec.bind_apply,
      Exec.check]
    cases m.readSteps (.ident name) path <;> rfl
  rw [Evaluator.value, Exec.bind_apply, hexpr, Exec.check, Exec.check]
  cases m.readSteps (.ident name) path with
  | error f => rfl
  | ok v => rfl

/-- The data that a chain from a variable is read as is the data in the slot that it is
written to: the one can be found if and only if the other can. They are the same, but a
function that is read as a member gets a receiver and the name of the member. -/
theorem reading_agrees_with_writing {x : Variable} {n k l : Nat} (hm : m.Sound)
    (htarget : target.flatten = .ident name :: code) (hcode : isPath code = true)
    (hx : m.frames.current.get? name = some x) (hconst : x.isConst = false)
    (hindices : ∀ e, .index e ∈ code → ∃ v, (evaluator n).value e m = .ok v m)
    (hk : n < k) (hl : n ≤ l) :
    ∃ p, (evaluator l).place target m = .ok p m ∧
      (∀ d m', (evaluator k).value target m = .ok d m' → m' = m ∧
        ∃ slot content data, m.locate p = .ok slot ∧ m.readPlace slot.place = .ok content ∧
          m.deref content = .ok data ∧ data.ReadAs p.path.getLast? d) ∧
      ∀ slot content data, m.locate p = .ok slot → m.readPlace slot.place = .ok content →
        m.deref content = .ok data →
        ∃ d, (evaluator k).value target m = .ok d m ∧ data.ReadAs p.path.getLast? d := by
  obtain ⟨path, hpath⟩ := exists_spells code hcode hindices
  obtain ⟨j, rfl⟩ := Nat.exists_eq_succ_of_ne_zero (Nat.ne_zero_of_lt hk)
  have hread := value_of_spells htarget
    (hpath.imp fun e v => value_of_le (Nat.le_of_lt_succ hk))
  refine ⟨_, place_of_spells htarget hcode (hpath.imp fun e v => value_of_le hl), ?_⟩
  have hsame := Machine.matches_chain hm hx hconst path
  refine ⟨fun d m' h => ?_, fun slot content data hslot hcontent hdata => ?_⟩
  · rw [hread, Exec.check_ok_iff] at h
    obtain ⟨hd, rfl⟩ := h
    obtain ⟨data, hdata, hsame⟩ := hsame.exists_right hd
    obtain ⟨slot, hslot, hdata⟩ := bind_eq_ok.1 hdata
    obtain ⟨content, hcontent, hdata⟩ := bind_eq_ok.1 hdata
    exact ⟨rfl, slot, content, data, hslot, hcontent, hdata, hsame⟩
  · obtain ⟨d, hd, hsame⟩ := hsame.exists_left
      (bind_eq_ok.2 ⟨slot, hslot, bind_eq_ok.2 ⟨content, hcontent, hdata⟩⟩)
    exact ⟨d, by rw [hread, Exec.check_ok_iff]; exact ⟨hd, rfl⟩, hsame⟩

end Chains

/-- Whether this text is what was computed. -/
def Result.isText (s : String) : Result Value → Bool
  | .ok (.str t) _ => t == s
  | _ => false

theorem Result.eq_ok_of_isText {s : String} {r : Result Value} (h : r.isText s = true) :
    ∃ m, r = .ok (.str s) m := by
  rw [isText.eq_def] at h
  split at h
  · exact ⟨_, by rw [beq_iff_eq.1 h]⟩
  · cases h

/-- The expression `(b[0]).s`. -/
def boxed : Expr :=
  (Tree.member (.paren (.index (.ident "b") (.num 0))) "s").lower 1

/-- In an array of an object that refers to a text, the text is what is read and what an
assignment finds. -/
theorem reading_agrees_with_writing_boxes :
    ∃ (m : Machine) (p : Place) (slot : Slot) (content : Value), m.Reachable ∧
      (evaluator 3).value boxed m = .ok (.str "x") m ∧ (evaluator 2).place boxed m = .ok p m ∧
      m.locate p = .ok slot ∧ m.readPlace slot.place = .ok content ∧
      m.deref content = .ok (.str "x") := by
  have hrun : ∃ p e m, parse "boxes" boxTokens = .ok p ∧
      (Machine.create {} .builtin .silent {}).runWith 12 p = .error e m ∧
      m.frames.current.get? "b" = some ⟨.array (.named "C"), boxes, false⟩ ∧
      ((evaluator 3).value boxed m).isText "x" = true :=
    ⟨_, _, _, rfl, rfl, rfl, by decide +kernel⟩
  obtain ⟨p, e, m, hp, hrun, hb, hread⟩ := hrun
  have hm : m.Reachable := .run 12 (.create {} .silent {}) hp (by rw [hrun]; rfl)
  have hindices : ∀ e, .index e ∈ [Instr.index ((Tree.num 0).lower 1), .ident "s", .member] →
      ∃ v, (evaluator 1).value e m = .ok v m := by
    intro e he
    simp only [List.mem_cons, Instr.index.injEq, reduceCtorEq, List.not_mem_nil, or_false] at he
    rw [he]
    exact ⟨.num 0, rfl⟩
  have htarget :
      boxed.flatten = .ident "b" :: [.index ((Tree.num 0).lower 1), .ident "s", .member] := rfl
  obtain ⟨p, hplace, hdown, -⟩ := reading_agrees_with_writing hm.sound htarget rfl hb rfl
    hindices (k := 3) (l := 2) (by decide) (by decide)
  obtain ⟨m', hread⟩ := Result.eq_ok_of_isText hread
  obtain ⟨rfl, slot, content, data, hslot, hcontent, hdata, hsame⟩ := hdown _ _ hread
  rcases hsame with rfl | ⟨f, receiver, name, -, -, ⟨⟩⟩
  exact ⟨_, p, slot, content, hm, hread, hplace, hslot, hcontent, hdata⟩

end HeapScript
