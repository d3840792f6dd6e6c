import HeapScript.Native.Builtin
import HeapScript.Proofs.Eval.Sound
import HeapScript.Proofs.Parser.Walk

/-!
# Reachable machines

The machines that a fresh one can become, by running parsed programs, binding
arguments and collecting garbage, and what they hold.

* `Reachable.sound`: they are sound, by induction on how they were reached.
* `ReachableBy.inv`: the invariant of a law holds of the machines that programs of its
  kind can reach.
* `stored_sound`: so every value that a variable, a chunk in use or a pending return
  value holds is sound at every depth.
-/

namespace HeapScript

namespace Machine

/-- What a fresh machine with the built-in functions can become. A run counts
whether it succeeds or fails. -/
inductive Reachable : Machine → Prop
  | create (config : Config) (console : Console) (files : Files) :
    Reachable (create config .builtin console files)
  | run {m m' : Machine} (fuel : Nat) {name : String} {tokens : List Token} {p : Program} :
    Reachable m → parse name tokens = .ok p → (m.runWith fuel p).machine? = some m' → Reachable m'
  | bindArguments {m : Machine} (args : List String) : Reachable m → Reachable (m.bindArguments args)
  | collectGarbage {m : Machine} : Reachable m → Reachable m.collectGarbage.2

/-- What a fresh machine can become by running only programs of which a property
holds. -/
inductive ReachableBy (P : Program → Prop) : Machine → Prop
  | create (config : Config) (console : Console) (files : Files) :
    ReachableBy P (create config .builtin console files)
  | run {m m' : Machine} (fuel : Nat) {name : String} {tokens : List Token} {p : Program} :
    ReachableBy P m → parse name tokens = .ok p → P p → (m.runWith fuel p).machine? = some m' →
    ReachableBy P m'
  | bindArguments {m : Machine} (args : List String) : ReachableBy P m →
    ReachableBy P (m.bindArguments args)
  | collectGarbage {m : Machine} : ReachableBy P m → ReachableBy P m.collectGarbage.2

/-- What a fresh machine can become by running only programs of which a property holds, if
no garbage is collected while one of them runs. -/
inductive SteadyBy (P : Program → Prop) : Machine → Prop
  | create (config : Config) (console : Console) (files : Files) :
    SteadyBy P (create config .builtin console files)
  | run {m m' : Machine} (fuel : Nat) {name : String} {tokens : List Token} {p : Program} :
    SteadyBy P m → parse name tokens = .ok p → P p → (m.runWith fuel p).machine? = some m' →
    m'.collector.collections = m.collector.collections → SteadyBy P m'
  | bindArguments {m : Machine} (args : List String) : SteadyBy P m →
    SteadyBy P (m.bindArguments args)
  | collectGarbage {m : Machine} : SteadyBy P m → SteadyBy P m.collectGarbage.2

/-- What a machine holds: in a variable of any frame, as the pending return value of
any frame, or in a chunk in use. -/
inductive Stores (m : Machine) : Value → Prop
  | var {f : Frame} {name : String} {x : Variable} : f ∈ m.frames.frames → (name, x) ∈ f.vars →
    Stores m x.value
  | pending {f : Frame} {v : Value} : f ∈ m.frames.frames → f.returnValue = some v → Stores m v
  | chunk {i : Nat} {v : Value} : m.heap.deref i = .ok v → Stores m v

variable {m m' : Machine}

theorem sound_create (config : Config) (console : Console) (files : Files) :
    (create config .builtin console files).Sound where
  natives := rfl
  heap := Heap.wellFormed_empty
  frames _ hv := by cases hv
  chunks i v h := by
    rw [Heap.deref_eq_ok_iff] at h
    obtain ⟨c, hc, -⟩ := h
    cases hc

/-- The outcome of running a parsed program on a sound machine. -/
theorem Sound.after_runWith (hm : m.Sound) {name : String} {tokens : List Token} {p : Program}
    (hp : parse name tokens = .ok p) (fuel : Nat) :
    soundness.After { m with sourceName := p.sourceName } (fun _ _ => True) (m.runWith fuel p) :=
  Law.after_runStatements fuel (fun s hs => (isLowered_of_parse hp s hs).within)
    ⟨hm.natives, hm.heap, hm.frames, hm.chunks⟩

theorem Sound.bindArguments (hm : m.Sound) (args : List String) : (m.bindArguments args).Sound := by
  refine hm.withFrames fun v hv => ?_
  obtain ⟨f, hf, hv⟩ := CallStack.mem_roots.1 hv
  rcases List.mem_append.1 hf with hf | hf
  · exact .inl (CallStack.mem_roots.2 ⟨f, List.mem_append_left _ hf, hv⟩)
  · cases List.mem_singleton.1 hf
    rcases Frame.mem_roots_declare hv with rfl | hv
    · -- the arguments are an array of texts
      right
      refine Value.kept_array (fun x hx => ?_) fun x hx => ?_
      · obtain ⟨s, -, rfl⟩ := List.mem_map.1 hx
        exact Value.kept_of_isScalar trivial
      · obtain ⟨s, -, rfl⟩ := List.mem_map.1 hx
        rintro ⟨index, ⟨⟩⟩
    · exact .inl (CallStack.mem_roots.2 ⟨_, m.frames.main_mem_frames, hv⟩)

theorem Reachable.sound (h : m.Reachable) : m.Sound := by
  induction h with
  | create config console files => exact sound_create config console files
  | run fuel _ hp hrun ih => exact ((ih.after_runWith hp fuel).next hrun).inv
  | bindArguments args _ ih => exact ih.bindArguments args
  | collectGarbage _ ih => exact ih.collectGarbage

theorem ReachableBy.mono {P Q : Program → Prop} (hPQ : ∀ p, P p → Q p) (h : m.ReachableBy P) :
    m.ReachableBy Q := by
  induction h with
  | create config console files => exact .create config console files
  | run fuel _ hp hP hrun ih => exact .run fuel ih hp (hPQ _ hP) hrun
  | bindArguments args _ ih => exact .bindArguments args ih
  | collectGarbage _ ih => exact .collectGarbage ih

theorem SteadyBy.mono {P Q : Program → Prop} (hPQ : ∀ p, P p → Q p) (h : m.SteadyBy P) :
    m.SteadyBy Q := by
  induction h with
  | create config console files => exact .create config console files
  | run fuel _ hp hP hrun hcount ih => exact .run fuel ih hp (hPQ _ hP) hrun hcount
  | bindArguments args _ ih => exact .bindArguments args ih
  | collectGarbage _ ih => exact .collectGarbage ih

/-- A law whose invariant holds of fresh machines, and that the surroundings of a program
keep, holds of every machine that programs of its kind can reach. -/
theorem ReachableBy.inv {P : Program → Prop} (L : Law)
    (hcreate : ∀ config console files, L.Inv (Machine.create config .builtin console files))
    (hname : ∀ {m : Machine} name, L.Inv m → L.Inv { m with sourceName := name })
    (hargs : ∀ {m : Machine} args, L.Inv m → L.Inv (m.bindArguments args))
    (hcollect : ∀ {m : Machine}, L.Inv m → L.Inv m.collectGarbage.2)
    (hP : ∀ p, P p → ∀ s ∈ p.statements, s.Within L.Source L.Code) (h : m.ReachableBy P) :
    L.Inv m := by
  induction h with
  | create config console files => exact hcreate config console files
  | @run m m' fuel name tokens p _ hp hprogram hrun ih =>
    have hafter := Law.after_runStatements fuel (hP p hprogram) (hname p.sourceName ih)
    exact (hafter.next hrun).inv
  | bindArguments args _ ih => exact hargs args ih
  | collectGarbage _ ih => exact hcollect ih

theorem Sound.stores (hm : m.Sound) {v : Value} (hv : m.Stores v) : v.Kept m.heap.capacity := by
  cases hv with
  | var hf hx =>
    exact hm.frames _ (CallStack.mem_roots.2 ⟨_, hf, Frame.value_mem_roots hx⟩)
  | pending hf hr =>
    exact hm.frames _ (CallStack.mem_roots.2 ⟨_, hf, Frame.mem_roots.2 (.inr hr)⟩)
  | chunk hd => exact hm.chunks _ _ hd

/-- A value that a reachable machine holds is, at every depth, no placeholder; its
objects have a member for every slot, its arrays no reference as an element, and its
references and receivers are indices of the heap. -/
theorem stored_sound (hm : m.Reachable) {v : Value} (hv : m.Stores v) :
    v.Every (Value.SoundAt m.heap.capacity) :=
  (hm.sound.stores hv).sound

end Machine

/-! ## A run that fails -/

/-- The tokens of `class C { ref str s; } alloc str a = "x"; C[] b = [C(a)]; d;`. -/
def boxTokens : List Token :=
  let symbols : List TokenKind :=
    [.symbol (.keyword .classDef), .ident "C", .symbol (.delimiter .lbrace),
      .symbol (.keyword .ref), .ident "str", .ident "s", .symbol (.delimiter .semicolon),
      .symbol (.delimiter .rbrace), .symbol (.keyword .alloc), .ident "str", .ident "a",
      .symbol (.assign .assign), .str "x", .symbol (.delimiter .semicolon), .ident "C",
      .symbol (.delimiter .lbracket), .symbol (.delimiter .rbracket), .ident "b",
      .symbol (.assign .assign), .symbol (.delimiter .lbracket), .ident "C",
      .symbol (.delimiter .lparen), .ident "a", .symbol (.delimiter .rparen),
      .symbol (.delimiter .rbracket), .symbol (.delimiter .semicolon), .ident "d",
      .symbol (.delimiter .semicolon), .eof]
  symbols.map fun kind => ⟨kind, "", 1⟩

/-- An array of an object that refers to the first chunk. -/
def boxes : Value :=
  .array (.named "C") [.object "C" [⟨"s", .str, true⟩] [.ref 0]]

theorem stored_sound_boxes :
    ∃ m : Machine, m.Reachable ∧ m.Stores boxes ∧ boxes.Every (Value.SoundAt m.heap.capacity) := by
  have hrun : ∃ p e m, parse "boxes" boxTokens = .ok p ∧
      (Machine.create {} .builtin .silent {}).runWith 12 p = .error e m ∧
      m.frames.main.vars[0]? = some ("b", ⟨.array (.named "C"), boxes, false⟩) :=
    ⟨_, _, _, rfl, rfl, rfl⟩
  obtain ⟨p, e, m, hp, hrun, hb⟩ := hrun
  have hm : m.Reachable := .run 12 (.create {} .silent {}) hp (by rw [hrun]; rfl)
  have hb : m.Stores boxes := .var m.frames.main_mem_frames (List.mem_of_getElem? hb)
  exact ⟨m, hm, hb, Machine.stored_sound hm hb⟩

end HeapScript
