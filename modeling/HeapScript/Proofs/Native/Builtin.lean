import HeapScript.Native.Builtin
import HeapScript.Proofs.Fault.Tame
import HeapScript.Proofs.Heap.Invariant
import HeapScript.Proofs.Value.Occurs

/-!
# What the built-in functions can do

All but two of them leave the heap and the collector alone and give a scalar. `bind` gives a function
with another receiver, and `collect` collects.

* `Native.Plain` is what the others have in common, `builtin_cases` the list.
* `Native.Blind`: no built-in function but `collect` looks at the call stack.
-/

namespace HeapScript

namespace Native

/-- What a plain function does in one run: it leaves the heap and the collector as they
are and gives a scalar, if it gives a value. -/
structure PlainRun (w w' : World) (r : Except Fault Value) : Prop where
  heap : w'.heap = w.heap
  collector : w'.collector = w.collector
  scalar : ∀ v, r = .ok v → v.IsScalar
  tame : Tame r

/-- The function does so whenever it is run. -/
def Plain (f : Native) : Prop :=
  ∀ stack args w r w', f.run stack args w = (r, w') → PlainRun w w' r

@[simp] theorem tame_expectNum (v : Value) : Tame (expectNum v) := by
  rw [expectNum.eq_def]
  split <;> simp

@[simp] theorem tame_expectStr (v : Value) : Tame (expectStr v) := by
  rw [expectStr.eq_def]
  split <;> simp

@[simp] theorem tame_target (h : Heap) (use : RefUse) (v : Value) : Tame (target h use v) := by
  rw [target.eq_def]
  split <;> simp

theorem plain_pure1 {name : String} {f : Heap → Value → Except Fault Value}
    (hf : ∀ h v x, f h v = .ok x → x.IsScalar) (ht : ∀ h v, Tame (f h v)) :
    (pure1 name f).Plain := by
  rintro stack args w _ _ ⟨⟩
  exact ⟨rfl, rfl, fun v hv => hf _ _ v hv, ht _ _⟩

theorem plain_pure2 {name : String} {f : Heap → Value → Value → Except Fault Value}
    (hf : ∀ h v v' x, f h v v' = .ok x → x.IsScalar) (ht : ∀ h v v', Tame (f h v v')) :
    (pure2 name f).Plain := by
  rintro stack args w _ _ ⟨⟩
  exact ⟨rfl, rfl, fun v hv => hf _ _ _ v hv, ht _ _ _⟩

/-- A function that always succeeds. -/
theorem plain_of_run {f : Native} (h : ∀ stack args w, ∃ v w',
      f.run stack args w = (.ok v, w') ∧ w'.heap = w.heap ∧ w'.collector = w.collector ∧
        v.IsScalar) : f.Plain := by
  intro stack args w r w' hrun
  obtain ⟨v, w'', hv, hheap, hcollector, hscalar⟩ := h stack args w
  rw [hv] at hrun
  cases hrun
  refine ⟨hheap, hcollector, ?_, tame_ok v⟩
  rintro _ ⟨⟩
  exact hscalar

/-! ## Numbers -/

theorem plain_numeric (name : String) (f : Float → Float) : (numeric name f).Plain := by
  refine plain_pure1 (fun _ v x hx => ?_) fun _ v => tame_map _ (tame_expectNum v)
  obtain ⟨n, -, rfl⟩ := map_eq_ok.1 hx
  trivial

theorem plain_power : power.Plain := by
  refine plain_pure2 (fun _ a b x hx => ?_) fun _ a b => ?_
  · obtain ⟨n, -, hx⟩ := bind_eq_ok.1 hx
    obtain ⟨k, -, hx⟩ := bind_eq_ok.1 hx
    rw [← pure_eq_ok.1 hx]
    trivial
  · exact tame_bind (tame_expectNum a) fun _ => tame_bind (tame_expectNum b) fun _ => tame_pure _

theorem plain_of_mem_arithmetic {f : Native} (hf : f ∈ arithmeticNatives) : f.Plain := by
  simp only [arithmeticNatives, List.mem_cons, List.not_mem_nil, or_false] at hf
  rcases hf with rfl | rfl | rfl | rfl | rfl | rfl | rfl
  all_goals first | exact plain_numeric _ _ | exact plain_power

/-! ## Conversions -/

@[simp] theorem tame_toFloat (h : Heap) (target : Ty) (v : Value) : Tame (toFloat h target v) := by
  rw [toFloat.eq_def]
  split
  · simp
  · cases Decimal.readTrimmed? _ <;> simp
  · simp
  · simp

theorem plain_toStr : toStr.Plain :=
  plain_pure1 (fun _ _ _ hx => by cases hx; trivial) fun _ _ => tame_ok _

theorem plain_toNum : toNum.Plain := by
  refine plain_pure1 (fun _ v x hx => ?_) fun _ v => tame_map _ (tame_toFloat _ _ v)
  obtain ⟨n, -, rfl⟩ := map_eq_ok.1 hx
  trivial

theorem plain_toInt : toInt.Plain := by
  refine plain_pure1 (fun _ v x hx => ?_) fun _ v => tame_bind (tame_toFloat _ _ v) fun n => ?_
  · obtain ⟨n, -, hx⟩ := bind_eq_ok.1 hx
    split at hx
    · rw [← pure_eq_ok.1 hx]
      trivial
    · cases hx
  · split <;> simp

theorem plain_typeOf : typeOf.Plain :=
  plain_pure1 (fun _ _ _ hx => by cases hx; trivial) fun _ _ => tame_ok _

theorem plain_length : length.Plain := by
  refine plain_pure1 (fun _ v x hx => ?_) fun _ v => ?_
  · split at hx <;> cases hx <;> trivial
  · split <;> simp

theorem plain_of_mem_conversion {f : Native} (hf : f ∈ conversionNatives) : f.Plain := by
  simp only [conversionNatives, List.mem_cons, List.not_mem_nil, or_false] at hf
  rcases hf with rfl | rfl | rfl | rfl | rfl
  · exact plain_toStr
  · exact plain_toNum
  · exact plain_toInt
  · exact plain_typeOf
  · exact plain_length

/-! ## Console, files and pauses -/

theorem plain_print : print.Plain :=
  plain_of_run fun _ _ _ => ⟨_, _, rfl, rfl, rfl, trivial⟩

theorem plain_println : println.Plain :=
  plain_of_run fun _ _ _ => ⟨_, _, rfl, rfl, rfl, trivial⟩

theorem plain_input : input.Plain :=
  plain_of_run fun _ _ _ => ⟨_, _, rfl, rfl, rfl, trivial⟩

theorem tame_mapFile {α : Type} (x : Except FileFault α) (action : FileAction) (path : String) :
    Tame (x.mapError (.file action path)) := by
  cases x <;> simp

theorem plain_readFile : readFile.Plain := by
  rintro stack args w _ _ ⟨⟩
  refine ⟨rfl, rfl, fun v hv => ?_, ?_⟩
  · obtain ⟨path, -, hv⟩ := bind_eq_ok.1 hv
    obtain ⟨text, -, hv⟩ := bind_eq_ok.1 hv
    rw [← pure_eq_ok.1 hv]
    trivial
  · exact tame_bind (tame_expectStr _) fun _ => tame_bind (tame_mapFile _ _ _) fun _ => tame_pure _

theorem plain_writeFile : writeFile.Plain := by
  intro stack args w r w' h
  have ht : Tame (do
      let path ← expectStr (args.headD .void)
      (w.files.write path (w.heap.display (args.tail.headD .void))).mapError
        (.file .write path) : Except Fault Files) :=
    tame_bind (tame_expectStr _) fun _ => tame_mapFile _ _ _
  simp only [writeFile] at h
  split at h
  · cases h
    exact ⟨rfl, rfl, by rintro _ ⟨⟩; trivial, tame_ok _⟩
  · rename_i fault hfault
    cases h
    exact ⟨rfl, rfl, nofun, tame_error.2 (ht.fault_ne hfault)⟩

theorem plain_sleep : sleep.Plain := by
  intro stack args w r w' h
  simp only [sleep] at h
  split at h
  · rename_i fault hfault
    cases h
    exact ⟨rfl, rfl, nofun, tame_error.2 ((tame_expectNum _).fault_ne hfault)⟩
  · split at h
    · cases h
      exact ⟨rfl, rfl, by rintro _ ⟨⟩; trivial, tame_ok _⟩
    · cases h
      exact ⟨rfl, rfl, nofun, by simp⟩

theorem plain_of_mem_console {f : Native} (hf : f ∈ consoleNatives) : f.Plain := by
  simp only [consoleNatives, List.mem_cons, List.not_mem_nil, or_false] at hf
  rcases hf with rfl | rfl | rfl | rfl | rfl | rfl
  · exact plain_print
  · exact plain_println
  · exact plain_input
  · exact plain_readFile
  · exact plain_writeFile
  · exact plain_sleep

/-! ## References and the heap -/

theorem plain_same : same.Plain := by
  rintro stack args w _ _ ⟨⟩
  refine ⟨rfl, rfl, fun v hv => ?_, ?_⟩
  · obtain ⟨i, -, hv⟩ := bind_eq_ok.1 hv
    obtain ⟨j, -, hv⟩ := bind_eq_ok.1 hv
    rw [← pure_eq_ok.1 hv]
    trivial
  · exact tame_bind (tame_target _ _ _) fun _ => tame_bind (tame_target _ _ _) fun _ => tame_pure _

theorem plain_heapLive : heapLive.Plain :=
  plain_of_run fun _ _ _ => ⟨_, _, rfl, rfl, rfl, trivial⟩

theorem bind_world {stack : CallStack} {args : List Value} {w w' : World}
    {r : Except Fault Value} (h : bind.run stack args w = (r, w')) : w' = w := by
  cases h
  rfl

/-- A bound function is the one that the first argument leads to, and its receiver a
chunk that holds an object. -/
theorem bind_eq_ok_function {stack : CallStack} {args : List Value} {w w' : World} {v : Value}
    (h : bind.run stack args w = (.ok v, w')) :
    ∃ f receiver, w.heap.resolve (args.headD .void) = .ok (.function f) ∧
      (∃ className layout members,
        w.heap.deref receiver = .ok (.object className layout members)) ∧
      v = .function { f with receiver := some receiver } := by
  obtain ⟨hv, -⟩ := Prod.mk.inj h
  obtain ⟨x, hx, hv⟩ := bind_eq_ok.1 hv
  rw [mapError_eq_ok] at hx
  cases x with
  | function f =>
    obtain ⟨receiver, -, hv⟩ := bind_eq_ok.1 hv
    obtain ⟨data, hd, hv⟩ := bind_eq_ok.1 hv
    rw [mapError_eq_ok] at hd
    cases data with
    | object className layout members =>
      exact ⟨f, receiver, hx, ⟨className, layout, members, hd⟩, (pure_eq_ok.1 hv).symm⟩
    | _ => cases hv
  | _ => cases hv

theorem tame_bindRun (stack : CallStack) (args : List Value) (w : World) :
    Tame (bind.run stack args w).1 := by
  refine tame_bind (tame_heap _) fun x => ?_
  split
  · refine tame_bind (tame_target _ _ _) fun _ => tame_bind (tame_heap _) fun data => ?_
    split <;> simp
  · simp

theorem collect_run {stack : CallStack} {args : List Value} {w w' : World}
    {r : Except Fault Value} (h : collect.run stack args w = (r, w')) :
    w' = (w.collect stack.roots).2 ∧ ∃ n, r = .ok (.num n) := by
  cases h
  exact ⟨rfl, _, rfl⟩

/-- The built-in functions. -/
theorem builtin_cases {f : Native} (hf : f ∈ Natives.builtin) :
    f.Plain ∨ f = bind ∨ f = collect := by
  simp only [Natives.builtin, List.mem_append] at hf
  rcases hf with ((hf | hf) | hf) | hf
  · exact .inl (plain_of_mem_console hf)
  · exact .inl (plain_of_mem_conversion hf)
  · exact .inl (plain_of_mem_arithmetic hf)
  · simp only [memoryNatives, List.mem_cons, List.not_mem_nil, or_false] at hf
    rcases hf with rfl | rfl | rfl | rfl
    · exact .inr (.inl rfl)
    · exact .inl plain_same
    · exact .inr (.inr rfl)
    · exact .inl plain_heapLive

/-! ## The call stack -/

/-- The function does the same whatever calls are active, and leaves the collector
switched as it is. -/
structure Blind (f : Native) : Prop where
  stack (s s' : CallStack) (args : List Value) (w : World) : f.run s' args w = f.run s args w
  enabled (s : CallStack) (args : List Value) (w : World) :
    (f.run s args w).2.collector.enabled = w.collector.enabled

theorem blind_pure1 (name : String) (f : Heap → Value → Except Fault Value) :
    (pure1 name f).Blind :=
  ⟨fun _ _ _ _ => rfl, fun _ _ _ => rfl⟩

theorem blind_pure2 (name : String) (f : Heap → Value → Value → Except Fault Value) :
    (pure2 name f).Blind :=
  ⟨fun _ _ _ _ => rfl, fun _ _ _ => rfl⟩

theorem Blind.byRef {f : Native} (hf : f.Blind) : f.byRef.Blind :=
  ⟨hf.stack, hf.enabled⟩

theorem blind_of_mem_console {f : Native} (hf : f ∈ consoleNatives) : f.Blind := by
  simp only [consoleNatives, List.mem_cons, List.not_mem_nil, or_false] at hf
  rcases hf with rfl | rfl | rfl | rfl | rfl | rfl
  · exact ⟨fun _ _ _ _ => rfl, fun _ _ _ => rfl⟩
  · exact ⟨fun _ _ _ _ => rfl, fun _ _ _ => rfl⟩
  · exact ⟨fun _ _ _ _ => rfl, fun _ _ _ => rfl⟩
  · exact ⟨fun _ _ _ _ => rfl, fun _ _ _ => rfl⟩
  · refine ⟨fun _ _ _ _ => rfl, fun _ _ _ => ?_⟩
    simp only [writeFile]
    split <;> rfl
  · refine ⟨fun _ _ _ _ => rfl, fun _ _ _ => ?_⟩
    simp only [sleep]
    split
    · rfl
    · split <;> rfl

/-- Only `collect` looks at the call stack. -/
theorem blind_or_collect {f : Native} (hf : f ∈ Natives.builtin) : f.Blind ∨ f = collect := by
  simp only [Natives.builtin, List.mem_append] at hf
  rcases hf with ((hf | hf) | hf) | hf
  · exact .inl (blind_of_mem_console hf)
  · simp only [conversionNatives, List.mem_cons, List.not_mem_nil, or_false] at hf
    rcases hf with rfl | rfl | rfl | rfl | rfl <;> exact .inl (blind_pure1 _ _)
  · simp only [arithmeticNatives, List.mem_cons, List.not_mem_nil, or_false] at hf
    rcases hf with rfl | rfl | rfl | rfl | rfl | rfl | rfl
    all_goals first | exact .inl (blind_pure1 _ _) | exact .inl (blind_pure2 _ _)
  · simp only [memoryNatives, List.mem_cons, List.not_mem_nil, or_false] at hf
    rcases hf with rfl | rfl | rfl | rfl
    · exact .inl (blind_pure2 _ _).byRef
    · exact .inl (blind_pure2 _ _).byRef
    · exact .inr rfl
    · exact .inl ⟨fun _ _ _ _ => rfl, fun _ _ _ => rfl⟩

theorem blind_of_mem_builtin {f : Native} (hf : f ∈ Natives.builtin) (hname : f.name ≠ "collect") :
    f.Blind := by
  rcases blind_or_collect hf with hf | rfl
  · exact hf
  · exact absurd rfl hname

end Native

end HeapScript
