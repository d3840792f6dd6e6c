import HeapScript.Proofs.Heap.Chain
import HeapScript.Proofs.Law.RefSlots
import HeapScript.Proofs.Machine.Typed
import HeapScript.Proofs.Value.Accepts
import HeapScript.Proofs.Value.Lenient
import HeapScript.Proofs.Value.References

/-!
# References and the types of what they lead to

Several slots may refer to one chunk, and a write through one of them is checked against
the type of that one only.

* `Ty.Stores`: the types of the data that a write through a slot leaves behind.
* `RefSlots.Uniform`: a member holds references only if it is declared for them.
* `RefSlots.Agree`: besides, types of slots that may come to refer to the same chunk accept
  that data.
* `RefSlots.Evolves`: how the heap changes as long as nothing is freed. Whatever accepts
  the data of a chunk accepts what it becomes.
* `RefSlots.Aligned`: all references lead to data, and variables accept what theirs lead
  to. `Aligned.evolves`, `Aligned.allocate` and `Aligned.collect` are the changes of the
  heap.
-/

namespace HeapScript

namespace Ty

variable {t u : Ty} {v : Value}

/-- A slot of the first type that was written to may hold data of the second: it accepts
the data, and arrays take over its element type. -/
def Stores (t u : Ty) : Prop :=
  t.accepts u ∧ ∀ e, t = .array e → e ≠ .var → u = t

/-- Data of the second type may stand in a chunk of a variable of the first: the type
accepts it, or has no other default. -/
def Suits (t u : Ty) : Prop :=
  t.accepts u ∨ u = .void ∧ t.default = .void

/-- Slots of the two types may come to refer to one chunk with data of the third: it
suits both, and was accepted by the one that came second. -/
def Meets (t s u : Ty) : Prop :=
  t.Suits u ∧ s.Suits u ∧ (t.accepts u ∨ s.accepts u)

/-- What is retagged is stored; an object is no array, whatever its class is called. -/
theorem stores_retag (h : t.accepts v.type)
    (hv : ∀ className layout members, v = .object className layout members →
      Ty.obj.accepts (.ofText className)) : t.Stores (v.retag t).type := by
  refine ⟨Value.accepts_type_retag h, ?_⟩
  rintro e rfl he
  obtain ⟨a, ha, -⟩ := array_accepts_iff.1 h
  cases v with
  | array tag items =>
    rw [Value.retag, if_neg he]
    rfl
  | num n =>
    rw [Value.type] at ha
    split at ha <;> cases ha
  | object className layout members =>
    have hobj := hv className layout members rfl
    rw [Value.type] at ha
    rw [ha] at hobj
    rcases named_accepts_iff.1 hobj with hobj | hobj | ⟨hobj, -⟩ | ⟨-, hobj⟩
    · cases hobj
    · exact absurd hobj (by decide)
    · exact absurd hobj (by decide)
    · cases hobj
  | _ => cases ha

theorem stores_default (t : Ty) : t.Stores t.default.type ∨ t.default = .void := by
  rcases t.holds_default with h | h | ⟨h, -⟩
  · exact absurd h (Value.not_isRef_default t)
  · refine .inl ⟨h, ?_⟩
    rintro e rfl -
    rfl
  · exact .inr h

end Ty

/-- The data that the slots of programs put in chunks: what a write through one of them
stores, and the default of a variable. -/
def RefSlots.Arises (S : RefSlots) (u : Ty) : Prop :=
  ∃ t, S.Types t ∧ (t.Stores u ∨ u = .void ∧ t.default = .void)

/-- Classes have names that `obj` accepts. -/
def RefSlots.Named (S : RefSlots) : Prop :=
  ∀ name, S.Classes name → Ty.obj.accepts (.ofText name)

/-- The types of slots that references are read through: those that hold them, and that
of receivers, if there are objects. -/
def RefSlots.Reads (S : RefSlots) (r : Ty) : Prop :=
  S.Types r ∨ r = .obj ∧ ∃ name, S.Classes name

/-- Members with one name hold references all or none. -/
def RefSlots.Uniform (S : RefSlots) : Prop :=
  ∀ p q, S.Members p → S.Members q → q.name = p.name → q.isRef = p.isRef

/-- Slots hold references only if they are declared for them, and those that may come to
refer to the same chunk accept what is stored through one another. -/
structure RefSlots.Agree (S : RefSlots) : Prop where
  named : S.Named
  uniform : S.Uniform
  stores {t r u u' : Ty} : S.Types t → S.Reads r → S.Arises u → t.Meets r u → t.Stores u' →
    r.accepts u'

namespace RefSlots

variable (S : RefSlots) {h h' h'' : Heap} {v w : Value} {m : Machine} {Γ : Nat → Ty}

/-! ## How the heap changes -/

/-- What is in use stays in use; references stay as they are, and data becomes data that
is accepted wherever the old one was. -/
def Evolves (h h' : Heap) : Prop :=
  ∀ i d, h.deref i = .ok d → ∃ d', h'.deref i = .ok d' ∧ (d' = d ∨ ¬d.IsRef ∧ ¬d'.IsRef ∧
    (S.Agree → ∀ r, S.Reads r → r.accepts d.type → r.accepts d'.type))

variable {S}

theorem Evolves.refl (h : Heap) : S.Evolves h h := fun _ d hd => ⟨d, hd, .inl rfl⟩

theorem Evolves.extends (he : S.Evolves h h') : h.Extends h' := fun i d hd =>
  have ⟨d', hd', hor⟩ := he i d hd
  ⟨d', hd', hor.imp_right fun hor => ⟨hor.1, hor.2.1⟩⟩

theorem Evolves.trans (he : S.Evolves h h') (he' : S.Evolves h' h'') : S.Evolves h h'' := by
  intro i d hd
  obtain ⟨d', hd', rfl | ⟨hr, hr', htypes⟩⟩ := he i d hd
  · exact he' i _ hd'
  · obtain ⟨d'', hd'', rfl | ⟨-, hr'', htypes'⟩⟩ := he' i d' hd'
    · exact ⟨_, hd'', .inr ⟨hr, hr', htypes⟩⟩
    · refine ⟨d'', hd'', .inr ⟨hr, hr'', fun hc r hread ha => ?_⟩⟩
      exact htypes' hc r hread (htypes hc r hread ha)

theorem Evolves.isUsed (he : S.Evolves h h') {i : Nat} (hu : h.isUsed i = true) :
    h'.isUsed i = true := by
  obtain ⟨d, hd⟩ := Heap.exists_deref hu
  obtain ⟨d', hd', -⟩ := he i d hd
  exact Heap.isUsed_of_deref hd'

/-- What accepts the data of a chunk accepts what it becomes. -/
theorem Evolves.accepts (he : S.Evolves h h') {k : Nat} {d d' : Value} (hd : h.deref k = .ok d)
    (hd' : h'.deref k = .ok d') (hc : S.Agree) {r : Ty} (hr : S.Reads r)
    (ha : r.accepts d.type) : r.accepts d'.type := by
  obtain ⟨x, hx, hor⟩ := he k d hd
  rw [hd'] at hx
  cases hx
  rcases hor with rfl | ⟨-, -, htypes⟩
  · exact ha
  · exact htypes hc r hr ha

theorem evolves_allocate (hw : h.WellFormed) (v : Value) : S.Evolves h (h.allocate v).2 :=
  fun _ d hd => ⟨d, Heap.deref_allocate_of_deref hw hd v, .inl rfl⟩

/-- Data is written over data that suited the slot it is written through. -/
theorem evolves_write {i : Nat} {old new : Value} (hd : h.deref i = .ok old) (hold : ¬old.IsRef)
    (hnew : ¬new.IsRef)
    (htypes : S.Agree → ∀ r, S.Reads r → r.accepts old.type → r.accepts new.type)
    (hw : h.write i new = .ok h') : S.Evolves h h' := by
  intro j d hj
  rw [Heap.deref_write hw]
  split
  · rename_i e
    subst e
    rw [hd] at hj
    cases hj
    exact ⟨new, rfl, .inr ⟨hold, hnew, htypes⟩⟩
  · exact ⟨d, hj, .inl rfl⟩

/-! ## References that lead to data -/

variable (S)

/-- References are to chunks in use, and receivers to objects. -/
def LiveAt (h : Heap) : Value → Prop
  | .ref i => h.isUsed i = true
  | .function f => ∀ i, f.receiver = some i →
      S.Reads .obj ∧ ∃ d, h.deref i = .ok d ∧ ¬d.IsRef ∧ (S.Agree → Ty.obj.accepts d.type)
  | _ => True

/-- So are they at every depth. -/
abbrev Live (h : Heap) (v : Value) : Prop := v.Every (S.LiveAt h)

/-- A reference leads to data that the type accepts. -/
def Targets (h : Heap) (t : Ty) (v : Value) : Prop :=
  ∀ i, v = .ref i → ∃ k d, h.Leads i k ∧ h.deref k = .ok d ∧ (S.Agree → t.accepts d.type)

/-- A variable that refers to data accepts it, or it is void by default and the variable
has the type that the chunk was allocated with. -/
def Keeps (Γ : Nat → Ty) (h : Heap) (x : Variable) : Prop :=
  ∀ i k d, x.value = .ref i → h.Leads i k → h.deref k = .ok d → S.Agree →
    x.ty.accepts d.type ∨ d = .void ∧ x.ty.default = .void ∧ x.ty = Γ k

variable {S}

theorem lenient_liveAt (h : Heap) : Value.Lenient (S.LiveAt h) := by
  intro v hr hf
  cases v with
  | ref i => exact absurd ⟨i, rfl⟩ hr
  | function f => exact absurd rfl (hf f)
  | _ => trivial

theorem LiveAt.evolves (hv : S.LiveAt h v) (he : S.Evolves h h') : S.LiveAt h' v := by
  cases v with
  | ref i => exact he.isUsed hv
  | function f =>
    intro i hi
    obtain ⟨hread, d, hd, hr, ha⟩ := hv i hi
    obtain ⟨d', hd', hor⟩ := he i d hd
    refine ⟨hread, d', hd', ?_, fun hc => he.accepts hd hd' hc hread (ha hc)⟩
    rcases hor with rfl | hor
    · exact hr
    · exact hor.2.1
  | _ => trivial

/-- A collection keeps the chunks that can be reached, and so what refers to such only. -/
theorem Live.collect (hv : S.Live h v) (hw : h.WellFormed) {roots : List Value}
    (hroots : ∀ i, v.Mentions i → h.Reach roots i) : S.Live (h.collect roots).2 v := by
  intro x hx
  cases x with
  | ref i =>
    exact (Heap.isUsed_collect hw roots i).2 ⟨hv _ hx, hroots i (hx.mentions (.ref i))⟩
  | function f =>
    intro i hi
    obtain ⟨hread, d, hd, hr, ha⟩ := hv _ hx i hi
    have hu := (Heap.isUsed_collect hw roots i).2
      ⟨Heap.isUsed_of_deref hd, hroots i (hx.mentions (.receiver hi))⟩
    rw [← Heap.deref_collect hw hu] at hd
    exact ⟨hread, d, hd, hr, ha⟩
  | _ => trivial

theorem Targets.evolves {t : Ty} (hv : S.Targets h t v) (ht : v.IsRef → S.Reads t)
    (he : S.Evolves h h') : S.Targets h' t v := by
  intro i hi
  obtain ⟨k, d, hk, hd, ha⟩ := hv i hi
  obtain ⟨d', hd', -⟩ := he k d hd
  exact ⟨k, d', hk.extends he.extends, hd',
    fun hc => he.accepts hd hd' hc (ht ⟨i, hi⟩) (ha hc)⟩

theorem Targets.keeps {x : Variable} (hx : S.Targets h x.ty x.value) : S.Keeps Γ h x := by
  intro i k d hi hk hd hc
  obtain ⟨k', d', hk', hd', ha⟩ := hx i hi
  rw [hk.unique hk', hd'] at hd
  cases hd
  exact .inl (ha hc)

theorem keeps_of_not_isRef {x : Variable} (hx : ¬x.value.IsRef) : S.Keeps Γ h x :=
  fun i _ _ hi => absurd ⟨i, hi⟩ hx

/-- What a variable refers to suits it. -/
theorem Keeps.suits {x : Variable} {i k : Nat} {d : Value} (hx : S.Keeps Γ h x)
    (hi : x.value = .ref i) (hk : h.Leads i k) (hd : h.deref k = .ok d) (hc : S.Agree) :
    x.ty.Suits d.type := by
  rcases hx i k d hi hk hd hc with ha | ⟨rfl, hdefault, -⟩
  · exact .inl ha
  · exact .inr ⟨rfl, hdefault⟩

/-- A live reference on a heap without cycles leads to data of the type that is seen. -/
theorem targets_of_accepts {t : Ty} (hg : h.Grounded) (hv : S.Live h v)
    (ha : t.accepts (h.typeOf v)) : S.Targets h t v := by
  rintro i rfl
  obtain ⟨k, hk⟩ := hg i hv.self
  obtain ⟨d, hd, -⟩ := hk.deref
  rw [Heap.typeOf_of_resolve (Heap.resolve_of_leads hk hd)] at ha
  exact ⟨k, d, hk, hd, fun _ => ha⟩

/-! ## Machines -/

variable (S)

/-- All references of the machine are live, and variables accept what theirs lead to. -/
abbrev Aligned (Γ : Nat → Ty) (m : Machine) : Prop :=
  m.Holding (fun _ x => (x.value.IsRef → S.Reads x.ty) ∧ S.Keeps Γ m.heap x ∧
    S.Live m.heap x.value) (S.Live m.heap)

variable {S}

theorem Keeps.evolves {x : Variable} (hx : S.Keeps Γ h x) (hr : x.value.IsRef → S.Reads x.ty)
    (hl : S.Live h x.value) (hg : h.Grounded) (he : S.Evolves h h')
    (hvoid : ∀ k d, h.deref k = .ok .void → h'.deref k = .ok d → S.Agree → S.Reads (Γ k) →
      (Γ k).default = .void → (Γ k).accepts d.type ∨ d = .void) : S.Keeps Γ h' x := by
  intro i k d' hi hk' hd' hc
  have hread := hr ⟨i, hi⟩
  rw [hi] at hl
  obtain ⟨k₀, hk⟩ := hg i hl.self
  obtain rfl := hk'.unique (hk.extends he.extends)
  obtain ⟨d, hd, -⟩ := hk.deref
  rcases hx i k d hi hk hd hc with ha | ⟨rfl, hdefault, hty⟩
  · exact .inl (he.accepts hd hd' hc hread ha)
  · rw [hty] at hread hdefault ⊢
    exact (hvoid k d' hd hd' hc hread hdefault).imp_right fun h => ⟨h, hdefault, rfl⟩

namespace Aligned

/-- The heap may evolve, as long as data that is void by default becomes something that
the type of its chunk accepts. -/
theorem evolves (ha : S.Aligned Γ m) (hg : m.heap.Grounded) {world : World}
    (he : S.Evolves m.heap world.heap)
    (hchunks : ∀ i v, world.heap.deref i = .ok v → m.heap.deref i = .ok v ∨ S.Live world.heap v)
    (hvoid : ∀ k d, m.heap.deref k = .ok .void → world.heap.deref k = .ok d → S.Agree →
      S.Reads (Γ k) → (Γ k).default = .void → (Γ k).accepts d.type ∨ d = .void) :
    S.Aligned Γ { m with toWorld := world } := by
  refine ⟨fun f hf => ?_, fun i v hd => ?_⟩
  · refine (ha.frames f hf).mono (fun name x hx => ?_) fun v hv => hv.imp fun _ hx => hx.evolves he
    exact ⟨hx.1, hx.2.1.evolves hx.1 hx.2.2 hg he hvoid, hx.2.2.imp fun _ hx => hx.evolves he⟩
  · rcases hchunks i v hd with hd | hv
    · exact (ha.chunks i v hd).imp fun _ hx => hx.evolves he
    · exact hv

/-- What was allocated as a chunk of a type matters for chunks in use only. -/
theorem congr_owner {Γ' : Nat → Ty} (ha : S.Aligned Γ m)
    (hΓ : ∀ k, m.heap.isUsed k = true → Γ' k = Γ k) : S.Aligned Γ' m := by
  refine ha.mono (fun name x hx => ⟨hx.1, fun i k d hi hk hd hc => ?_, hx.2.2⟩) fun v hv => hv
  rw [hΓ k (Heap.isUsed_of_deref hd)]
  exact hx.2.1 i k d hi hk hd hc

theorem allocate (ha : S.Aligned Γ m) (hg : m.heap.Grounded) (hw : m.heap.WellFormed)
    (hv : S.Live m.heap v) (ty : Ty) :
    S.Aligned (Function.update Γ (m.heap.allocate v).1 ty)
      { m with heap := (m.heap.allocate v).2 } := by
  have hfresh : ∀ k, m.heap.isUsed k = true → k ≠ (m.heap.allocate v).1 := by
    rintro k hk rfl
    exact absurd hk (Bool.eq_false_iff.1 (Heap.isUsed_allocate_fresh hw v))
  have hsame : S.Aligned (Function.update Γ (m.heap.allocate v).1 ty) m :=
    ha.congr_owner fun k hk => Function.update_of_ne (hfresh k hk) _ _
  refine hsame.evolves hg (evolves_allocate hw v) (fun i w hd => ?_) fun k d hd hd' _ _ _ => ?_
  · rw [Heap.deref_allocate hw] at hd
    split at hd
    · cases hd
      exact .inr (hv.imp fun _ hx => hx.evolves (evolves_allocate hw _))
    · exact .inl hd
  · rw [Heap.deref_allocate_of_deref hw hd] at hd'
    cases hd'
    exact .inr rfl

/-- A collection keeps what frames and the chunks that it keeps refer to. -/
theorem collect (ha : S.Aligned Γ m) (hw : m.heap.WellFormed) :
    S.Aligned Γ m.collectGarbage.2 := by
  have hextends := Heap.collect_extends hw m.frames.roots
  refine ⟨fun f hf => ⟨fun p hp => ?_, fun v hv => ?_⟩, fun i v hd => ?_⟩
  · obtain ⟨hread, hkeeps, hlive⟩ := (ha.frames f hf).vars p hp
    refine ⟨hread, fun i k d hi hk hd hc => ?_, hlive.collect hw fun i hi => ?_⟩
    · exact hkeeps i k d hi (hk.extends hextends) (Heap.deref_of_collect hw hd) hc
    · exact .root (CallStack.mem_roots.2 ⟨f, hf, Frame.value_mem_roots hp⟩) hi
  · refine ((ha.frames f hf).pending v hv).collect hw fun i hi => ?_
    exact .root (CallStack.mem_roots.2 ⟨f, hf, Frame.mem_roots.2 (.inr hv)⟩) hi
  · have hu := Heap.isUsed_of_deref hd
    have hd' : m.heap.deref i = .ok v := Heap.deref_of_collect hw hd
    exact (ha.chunks i v hd').collect hw fun j hj =>
      .step ((Heap.isUsed_collect hw _ i).1 hu).2 hd' hj

end Aligned

/-- The variable of a new chunk accepts its data, or that is void by default. -/
theorem keeps_allocated (hw : h.WellFormed) {x : Variable} (hx : x.value = .ref (h.allocate v).1)
    (hdata : ¬v.IsRef → S.Agree → x.ty.accepts v.type ∨ v = .void ∧ x.ty.default = .void)
    (href : S.Targets h x.ty v) :
    S.Keeps (Function.update Γ (h.allocate v).1 x.ty) (h.allocate v).2 x := by
  intro i k d hi hk hd hc
  rw [hx] at hi
  cases hi
  have hnew : (h.allocate v).2.deref (h.allocate v).1 = .ok v := by
    rw [Heap.deref_allocate hw, if_pos rfl]
  by_cases hr : v.IsRef
  · obtain ⟨j, rfl⟩ := hr
    obtain ⟨k', d', hk', hd', ha⟩ := href j rfl
    obtain rfl := hk.unique (.next hnew (hk'.extends (Heap.extends_allocate hw _)))
    rw [Heap.deref_allocate_of_deref hw hd'] at hd
    cases hd
    exact .inl (ha hc)
  · obtain rfl := hk.unique (.here hnew hr)
    rw [hnew] at hd
    cases hd
    exact (hdata hr hc).imp_right fun ⟨hvoid, hdefault⟩ =>
      ⟨hvoid, hdefault, by rw [Function.update_self]⟩

end RefSlots

end HeapScript
