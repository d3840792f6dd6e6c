import HeapScript.Proofs.Machine.Aligned

/-!
# What is kept of aliases

* `RefSlots.Inv`: data in chunks is of a type that some slot stores. If members with one
  name hold references all or none, chains of references end, and as long as no collection
  has taken place, all references lead to data and variables accept what theirs lead to. A
  collection does not see the values that an expression has computed so far, so it may
  free what these refer to.
* The lemmas go through the changes that evaluation makes to a machine. `Inv.assign` is
  where it matters that the types of slots agree.
-/

namespace HeapScript

/-- No chunk for references is declared with a type that accepts a reference to
nothing. -/
def RefSlots.Strict (S : RefSlots) : Prop :=
  ∀ t, S.Chains t → ¬t.accepts (.named "null")

namespace RefSlots

variable (S : RefSlots) (c : Nat)

/-- Slots hold references only if they are declared for them, and of so many collections
none has taken place since the run started. -/
structure Quiet (collections : Nat) : Prop where
  uniform : S.Uniform
  le : collections ≤ c

/-- What holds between any two steps of a run that started after so many collections. -/
structure Inv (m : Machine) : Prop where
  base : S.trait.Inv m
  started : c ≤ m.collector.collections
  arises : S.Named → ∀ k d, m.heap.deref k = .ok d → ¬d.IsRef → S.Arises d.type
  grounded : S.Uniform ∧ S.Strict ∨ S.Quiet c m.collector.collections → m.heap.Grounded
  aligned : S.Quiet c m.collector.collections → ∃ Γ, S.Aligned Γ m

/-- How a machine may differ from an earlier one. -/
structure Later (m m' : Machine) : Prop where
  collections : m.collector.collections ≤ m'.collector.collections
  evolves : S.Quiet c m'.collector.collections → S.Evolves m.heap m'.heap

/-- What is stored, and live as long as no collection has taken place. -/
structure Stored (m : Machine) (v : Value) : Prop where
  has : S.trait.Has v
  live : S.Quiet c m.collector.collections → S.Live m.heap v

/-- What a slot of a type holds. -/
structure Fits (m : Machine) (b : Bool) (ty : Ty) (v : Value) : Prop extends S.Stored c m v where
  declares : b = true → S.Types ty
  isRef : v.IsRef ↔ b = true
  stores : ¬v.IsRef → S.Named → ty.Stores v.type ∨ v = .void ∧ ty.default = .void
  targets : S.Quiet c m.collector.collections → S.Targets m.heap ty v

variable {S c} {m m' m'' : Machine} {v w : Value}

namespace Later

theorem refl (m : Machine) : S.Later c m m := ⟨Nat.le_refl _, fun _ => .refl _⟩

theorem quiet (h : S.Later c m m') (hc : S.Quiet c m'.collector.collections) :
    S.Quiet c m.collector.collections :=
  ⟨hc.uniform, h.collections.trans hc.le⟩

theorem trans (h : S.Later c m m') (h' : S.Later c m' m'') : S.Later c m m'' :=
  ⟨h.collections.trans h'.collections,
    fun hc => (h.evolves (h'.quiet hc)).trans (h'.evolves hc)⟩

theorem of_eq (hheap : m'.heap = m.heap) (hcollector : m'.collector = m.collector) :
    S.Later c m m' :=
  ⟨by rw [hcollector], fun _ => hheap ▸ .refl _⟩

end Later

theorem Stored.later (hv : S.Stored c m v) (hl : S.Later c m m') : S.Stored c m' v :=
  ⟨hv.has, fun hc => (hv.live (hl.quiet hc)).imp fun _ hx => hx.evolves (hl.evolves hc)⟩

theorem Fits.later {b : Bool} {ty : Ty} (hv : S.Fits c m b ty v) (hl : S.Later c m m') :
    S.Fits c m' b ty v where
  toStored := hv.toStored.later hl
  declares := hv.declares
  isRef := hv.isRef
  stores := hv.stores
  targets hc := (hv.targets (hl.quiet hc)).evolves
    (fun hr => .inl (hv.declares (hv.isRef.1 hr))) (hl.evolves hc)

theorem stored_scalar (h : v.IsScalar) : S.Stored c m v :=
  ⟨Trait.has_scalar h, fun _ => (lenient_liveAt _).scalar h⟩

/-- Objects are accepted as such. -/
theorem accepts_object (hc : S.Named) (hv : S.trait.Has v) :
    ∀ className layout members, v = .object className layout members →
      Ty.obj.accepts (.ofText className) := by
  rintro className layout members rfl
  exact hc _ hv.self.1

/-- A slot that holds a reference although it is not declared for one is a member, and has
a type for references. -/
theorem stray_of_enter {whole part : Value} {s : Step} {ty : Ty} (hv : S.trait.Holds whole)
    (h : whole.enter s = .ok (part, ty, false)) (hr : part.IsRef) : S.Types ty ∧ ¬S.Uniform := by
  cases s with
  | member name =>
    obtain ⟨p, hp, -, rfl, hflag⟩ := Holds.fills hv h
    refine ⟨hp.types hr, fun huniform => ?_⟩
    obtain ⟨q, hq, hname, hflag'⟩ := hp.shared hr
    rw [huniform p q hp.member hq hname, hflag] at hflag'
    cases hflag'
  | index idx =>
    obtain ⟨items, i, rfl, -, hpart, -⟩ := Value.enter_index h
    exact absurd hr (hv part (List.mem_of_getElem? hpart))

namespace Inv

/-! ## What is read -/

theorem lookup (hm : S.Inv c m) {name : String} (h : m.lookupValue name = .ok v) :
    S.Stored c m v := by
  refine ⟨hm.base.holding.lookupValue (fun _ _ h => h.2) h, fun hc => ?_⟩
  obtain ⟨Γ, ha⟩ := hm.aligned hc
  exact ha.lookupValue (fun _ _ h => h.2.2) h

theorem resolve (hm : S.Inv c m) (hv : S.Stored c m v) (h : m.heap.resolve v = .ok w) :
    S.Stored c m w ∧ ¬w.IsRef := by
  obtain ⟨hhas, hr⟩ := hm.base.resolve hv.has h
  refine ⟨⟨hhas, fun hc => ?_⟩, hr⟩
  obtain ⟨Γ, ha⟩ := hm.aligned hc
  exact ha.resolve (hv.live hc) h

theorem resolveOperand (hm : S.Inv c m) (hv : S.Stored c m v) (h : m.resolve v = .ok w) :
    S.Stored c m w := by
  refine ⟨hm.base.holding.resolveOperand (fun _ _ h => h.2) hv.has h, fun hc => ?_⟩
  obtain ⟨Γ, ha⟩ := hm.aligned hc
  exact ha.resolveOperand (fun _ _ h => h.2.2) (hv.live hc) h

theorem rootValue (hm : S.Inv c m) {root : Root} {ty : Ty} (h : m.rootValue root = .ok (v, ty)) :
    S.Stored c m v := by
  refine ⟨hm.base.holding.rootValue (fun _ _ h => h.2) h, fun hc => ?_⟩
  obtain ⟨Γ, ha⟩ := hm.aligned hc
  exact ha.rootValue (fun _ _ h => h.2.2) h

theorem reference (hm : S.Inv c m) {ty : Ty} {use : RefUse} (hv : S.Stored c m v)
    (ht : S.Types ty) (h : m.expectReference ty use v = .ok w) : S.Fits c m true ty w := by
  obtain ⟨rfl, hr, ha⟩ := Machine.expectReference_eq_ok h
  exact ⟨hv, fun _ => ht, iff_of_true hr rfl, fun hr' => absurd hr hr',
    fun hc => targets_of_accepts (hm.grounded (.inr hc)) (hv.live hc) ha⟩

end Inv

theorem fits_conform {heap : Heap} {ty : Ty} (hv : S.Stored c m v) (hr : ¬v.IsRef)
    (h : heap.conform ty v = .ok w) : S.Fits c m false ty w := by
  obtain ⟨ha, rfl⟩ := Heap.conform_eq_ok h
  rw [Heap.typeOf_of_not_isRef hr] at ha
  have hr' : ¬(v.retag ty).IsRef := fun hr' => hr (Value.retag_isRef.1 hr')
  refine ⟨⟨(Trait.has_conform trivial hv.has hr h).1, fun hc => ?_⟩, by rintro ⟨⟩,
    iff_of_false hr' Bool.false_ne_true, fun _ hc => .inl ?_, fun _ i hi => absurd ⟨i, hi⟩ hr'⟩
  · exact (lenient_liveAt _).retag (hv.live hc) ty
  · exact Ty.stores_retag ha (accepts_object hc hv.has)

theorem fits_default (ty : Ty) : S.Fits c m false ty ty.default where
  has := Trait.has_default (by rintro ⟨⟩)
  live _ := (lenient_liveAt _).default ty
  declares := (by rintro ⟨⟩)
  isRef := iff_of_false (Value.not_isRef_default ty) Bool.false_ne_true
  stores _ _ := ty.stores_default.imp_right fun h => ⟨h, h⟩
  targets _ i hi := absurd ⟨i, hi⟩ (Value.not_isRef_default ty)

/-- A reference that a chunk is allocated for leads to data: the type of the chunk does not
accept a reference to nothing, or there is none. -/
theorem Fits.leads {ty : Ty} {b : Bool} (hv : S.Fits c m b ty v)
    (hs : S.Uniform ∧ S.Strict ∨ S.Quiet c m.collector.collections)
    (hchain : v.IsRef → S.Chains ty)
    (ha : v.IsRef → ty.accepts (m.heap.typeOf v)) :
    ∀ i, v = .ref i → ∃ k, m.heap.Leads i k := by
  rintro i rfl
  rcases hs with ⟨-, hs⟩ | hc
  · have hnull := hs ty (hchain ⟨i, rfl⟩)
    have ha := ha ⟨i, rfl⟩
    cases hr : m.heap.resolve (.ref i) with
    | ok d =>
      obtain ⟨k, hk, -⟩ := Heap.resolve_ref_eq_ok hr
      exact ⟨k, hk⟩
    | error e =>
      rw [Heap.typeOf, hr] at ha
      exact absurd ha hnull
  · obtain ⟨k, d, hk, -⟩ := hv.targets hc i rfl
    exact ⟨k, hk⟩

/-- A member that is read through a reference gets it as its receiver, which is one of an
object. -/
theorem stored_member {object data : Value} {origin : Option Nat} {name : String}
    (ho : m.resolveWithOrigin object = .ok (data, origin)) (hd : S.Stored c m data)
    (h : m.member object (.ident name) = .ok v) : S.Stored c m v := by
  refine ⟨Trait.Inv.member ho hd.has h, fun hc => ?_⟩
  obtain ⟨part, ty, holdsRef, he, hv⟩ := Machine.member_eq_ok ho h
  have hpart := (hd.live hc).part (Value.enter_mem_parts he)
  rcases hv with rfl | ⟨f, rfl, rfl⟩
  · exact hpart
  · refine Value.every_of_parts_eq_nil rfl fun i hi => ?_
    cases origin with
    | none => exact hpart.self i hi
    | some last =>
      cases hi
      obtain ⟨className, layout, members, _, _, rfl, -⟩ := Value.enter_member he
      exact ⟨.inr ⟨rfl, className, hd.has.self.1⟩, _, Machine.deref_of_origin ho, nofun,
        fun hc => hc.named _ hd.has.self.1⟩

theorem stored_returned {f : FunctionValue} {name : String} (hf : S.trait.Holds (.function f))
    (hv : S.Stored c m v) (h : m.checkReturn f.definition name v = .ok w) : S.Stored c m w := by
  refine ⟨Trait.Inv.returned hf hv.has h, fun hc => ?_⟩
  rcases Machine.checkReturn_eq_ok h with rfl | h
  · exact hv.live hc
  · rw [(Heap.conform_eq_ok h).2]
    exact (lenient_liveAt _).retag (hv.live hc) _

namespace Inv

/-! ## Frames -/

/-- The frames may change while the heap and the collector stay as they are. -/
theorem withFrames (hm : S.Inv c m) {n : Machine} (hheap : n.heap = m.heap)
    (hcollector : n.collector = m.collector) (hbase : S.trait.Inv n)
    (haligned : S.Quiet c m.collector.collections → ∀ Γ, S.Aligned Γ m → S.Aligned Γ n) :
    S.Inv c n ∧ S.Later c m n := by
  refine ⟨⟨hbase, ?_, ?_, ?_, ?_⟩, .of_eq hheap hcollector⟩
  · rw [hcollector]
    exact hm.started
  · rw [hheap]
    exact hm.arises
  · rw [hheap, hcollector]
    exact hm.grounded
  · rw [hcollector]
    intro hc
    obtain ⟨Γ, ha⟩ := hm.aligned hc
    exact ⟨Γ, haligned hc Γ ha⟩

theorem declare (hm : S.Inv c m) {b : Bool} (name : String) {x : Variable}
    (hx : S.Fits c m b x.ty x.value) :
    S.Inv c (m.declare name x) ∧ S.Later c m (m.declare name x) := by
  have hvar : S.Var name x := fun hr => .inl (hx.declares (hx.isRef.1 hr))
  refine hm.withFrames rfl rfl ⟨hm.base.natives, hm.base.heap, ?_⟩ fun hc Γ ha => ?_
  · exact hm.base.holding.declare ⟨hvar, hx.has⟩
  · refine Machine.Holding.declare ha ⟨fun hr => .inl (hx.declares (hx.isRef.1 hr)), ?_, hx.live hc⟩
    exact (hx.targets hc).keeps

theorem enter (hm : S.Inv c m) {f : FunctionValue} (invokedAs : Option String) (name : String)
    {values : List Value} (hf : S.Stored c m (.function f))
    (hv : List.Forall₂ (fun p v => S.Fits c m p.isRef p.ty v) f.definition.params values) :
    S.Inv c (m.enter (calleeFrame f invokedAs name values m.frames.current)) := by
  have hfunction : ¬(Value.function f).IsRef := by
    rintro ⟨_, ⟨⟩⟩
  refine (hm.withFrames (n := m.enter _) rfl rfl ?_ fun hc Γ ha => ?_).1
  · refine S.trait.law.enter invokedAs name hm.base ⟨hf.has, hfunction⟩ (hv.imp fun p v h => ?_)
    exact ⟨h.declares, h.isRef, h.has⟩
  · refine Machine.Holding.enter ha (Frame.Holding.calleeFrame ha.current invokedAs name ?_
      (fun invoked => ?_) fun index hi => ?_)
    · refine hv.imp fun p v h => ⟨fun hr => .inl (h.declares (h.isRef.1 hr)), ?_, h.live hc⟩
      exact Targets.keeps (h.targets hc)
    · exact ⟨fun hr => absurd hr hfunction, keeps_of_not_isRef hfunction, hf.live hc⟩
    · obtain ⟨hread, d, hd, hr, hobj⟩ := (hf.live hc).self index hi
      refine ⟨fun _ => hread, Targets.keeps ?_, ?_⟩
      · rintro _ ⟨⟩
        exact ⟨index, d, .here hd hr, hd, hobj⟩
      · exact Value.every_of_parts_eq_nil rfl (Heap.isUsed_of_deref hd)

/-! ## The heap -/

/-- After a collection nothing more is known of what references lead to. -/
theorem collectWith (hm : S.Inv c m) (roots : List Value) :
    S.Inv c { m with toWorld := (m.toWorld.collect roots).2 } ∧
      S.Later c m { m with toWorld := (m.toWorld.collect roots).2 } := by
  have hnot : ¬S.Quiet c (m.toWorld.collect roots).2.collector.collections := fun hc =>
    absurd (hm.started.trans_lt hc.le) (Nat.lt_irrefl _)
  refine ⟨⟨hm.base.collectWith roots, hm.started.trans (Nat.le_succ _), ?_, ?_, ?_⟩, ?_, ?_⟩
  · exact fun hc k d hd => hm.arises hc k d (Heap.deref_of_collect hm.base.heap hd)
  · rintro (hs | hc)
    · exact (hm.grounded (.inl hs)).collect hm.base.heap roots
    · exact absurd hc hnot
  · exact fun hc => absurd hc hnot
  · exact Nat.le_succ _
  · exact fun hc => absurd hc hnot

/-- An allocation that was counted may be followed by a collection. -/
theorem noteAllocation (hm : S.Inv c m) :
    S.Inv c m.noteAllocation ∧ S.Later c m m.noteAllocation := by
  have hcount : S.Inv c { m with collector := m.collector.noteAllocation } :=
    ⟨⟨hm.base.natives, hm.base.heap, hm.base.holding.sameHeap rfl⟩, hm.started, hm.arises,
      hm.grounded, fun hc => (hm.aligned hc).imp fun Γ ha => ⟨ha.frames, ha.chunks⟩⟩
  have hlater : S.Later c m { m with collector := m.collector.noteAllocation } :=
    ⟨Nat.le_refl _, fun _ => .refl _⟩
  rw [Machine.noteAllocation]
  split
  · obtain ⟨hinv, hcollect⟩ := hcount.collectWith m.frames.roots
    exact ⟨hinv, hlater.trans hcollect⟩
  · exact ⟨hcount, hlater⟩

theorem allocate (hm : S.Inv c m) {flags : DeclFlags} {ty : Ty} {name : String}
    {init : Option Expr} {line : Nat} (hcode : S.Code (.decl flags ty name init line))
    (halloc : flags.isAlloc = true) (hv : S.Fits c m flags.isRef ty v)
    (ha : flags.isRef = true → v.IsRef ∧ ty.accepts (m.heap.typeOf v)) :
    let chunk := m.heap.allocate v
    let m' := (({ m with heap := chunk.2 } : Machine).declare name
      { ty, value := .ref chunk.1, isConst := flags.isConst })
    S.Inv c m' ∧ S.Later c m m' := by
  intro chunk m'
  have hw := hm.base.heap
  have htype : S.Types ty := hcode.1 (.inl halloc)
  have hused : chunk.2.isUsed chunk.1 = true := by
    rw [Heap.isUsed_allocate hw, Bool.or_eq_true, beq_iff_eq]
    exact .inr rfl
  have hbase : S.trait.Inv m' := by
    refine ⟨hm.base.natives, hw.allocate v, (hm.base.holding.allocate hw hv.has).declare ?_⟩
    exact ⟨fun _ => .inl htype, Value.every_of_parts_eq_nil rfl trivial⟩
  refine ⟨⟨hbase, hm.started, fun hc k d hd hr => ?_, fun hs => ?_, fun hc => ?_⟩,
    Nat.le_refl _, fun _ => evolves_allocate hw v⟩
  · have hd : chunk.2.deref k = .ok d := hd
    rw [Heap.deref_allocate hw] at hd
    split at hd
    · cases hd
      refine ⟨ty, htype, (hv.stores hr hc).imp_right fun ⟨hvoid, hdefault⟩ => ⟨?_, hdefault⟩⟩
      rw [hvoid]
      rfl
    · exact hm.arises hc k d hd hr
  · exact (hm.grounded hs).allocate hw (hv.leads hs
      (fun hr => hcode.2 halloc (hv.isRef.1 hr)) fun hr => (ha (hv.isRef.1 hr)).2)
  · obtain ⟨Γ, haligned⟩ := hm.aligned hc
    refine ⟨Function.update Γ chunk.1 ty, ?_⟩
    refine Machine.Holding.declare (haligned.allocate (hm.grounded (.inr hc)) hw (hv.live hc) ty)
      ⟨fun _ => .inl htype, ?_, Value.every_of_parts_eq_nil rfl hused⟩
    exact keeps_allocated (x := { ty, value := .ref chunk.1, isConst := flags.isConst }) hw rfl
      (fun hr hc => (hv.stores hr hc.named).imp_left And.left) (hv.targets hc)

theorem arises_write (hm : S.Inv c m) {index : Nat} {new : Value} {heap : Heap}
    (harises : ¬new.IsRef → S.Named → S.Arises new.type) (hw : m.heap.write index new = .ok heap)
    (hc : S.Named) (k : Nat) (d : Value) (hd : heap.deref k = .ok d) (hr : ¬d.IsRef) :
    S.Arises d.type := by
  rw [Heap.deref_write hw] at hd
  split at hd
  · cases hd
    exact harises hr hc
  · exact hm.arises hc k d hd hr

/-- Data is written over the data of a chunk. -/
theorem write (hm : S.Inv c m) {index : Nat} {old new : Value} {heap : Heap}
    (hbase : S.trait.Inv { m with heap }) (hd : m.heap.deref index = .ok old) (hold : ¬old.IsRef)
    (hnew : ¬new.IsRef) (hlive : S.Quiet c m.collector.collections → S.Live m.heap new)
    (harises : S.Named → S.Arises new.type)
    (htypes : S.Quiet c m.collector.collections → S.Agree → ∀ r, S.Reads r → r.accepts old.type →
      r.accepts new.type)
    (hvoid : S.Quiet c m.collector.collections → ∀ Γ, S.Aligned Γ m → old = .void → S.Agree →
      S.Reads (Γ index) → (Γ index).default = .void → (Γ index).accepts new.type)
    (hw : m.heap.write index new = .ok heap) :
    S.Inv c { m with heap } ∧ S.Later c m { m with heap } := by
  have hevolves : S.Quiet c m.collector.collections → S.Evolves m.heap heap :=
    fun hc => evolves_write hd hold hnew (htypes hc) hw
  refine ⟨⟨hbase, hm.started, hm.arises_write (fun _ => harises) hw, fun hs => ?_, fun hc => ?_⟩,
    Nat.le_refl _, hevolves⟩
  · exact (hm.grounded hs).write hd hold hnew hw
  · obtain ⟨Γ, ha⟩ := hm.aligned hc
    refine ⟨Γ, ha.evolves (hm.grounded (.inr hc)) (hevolves hc) (fun i v hi => ?_)
      fun k d hk hk' hagree hread hdefault => ?_⟩
    · rw [Heap.deref_write hw] at hi
      split at hi
      · cases hi
        exact .inr ((hlive hc).imp fun _ hx => hx.evolves (hevolves hc))
      · exact .inl hi
    · rw [Heap.deref_write hw] at hk'
      split at hk'
      · rename_i e
        subst e
        rw [hk] at hd
        cases hd
        cases hk'
        exact .inl (hvoid hc Γ ha rfl hagree hread hdefault)
      · rw [hk] at hk'
        cases hk'
        exact .inr rfl

/-! ## Assignments -/

theorem live_assigned (hm : S.Inv c m) {slot : Slot} {op : AssignOp} (hv : S.Stored c m v)
    (h : m.assignedValue slot op v = .ok w) (hc : S.Quiet c m.collector.collections) :
    S.Live m.heap w := by
  obtain ⟨x, hx, href, hdata⟩ := Machine.assignedValue_eq_ok h
  have hx : S.Live m.heap x := by
    rcases hx with rfl | ⟨binary, old, a, b, hold, ha, hb, hx⟩
    · exact hv.live hc
    · obtain ⟨⟨root, ty⟩, hroot, hget⟩ := bind_eq_ok.1 hold
      have hold : S.Stored c m old := ⟨(hm.rootValue hroot).has.getAt hget,
        fun hc => ((hm.rootValue hroot).live hc).getAt hget⟩
      exact (lenient_liveAt _).binary ((hm.resolveOperand hold ha).live hc)
        ((hm.resolveOperand hv hb).live hc) hx
  cases hs : slot.holdsRef with
  | true =>
    rw [(href hs).1]
    exact hx
  | false =>
    rw [(hdata hs).2]
    exact (lenient_liveAt _).retag hx _

end Inv

/-- What is assigned to a slot for data is data that it stores. -/
theorem stores_assigned {slot : Slot} {op : AssignOp} (hw : S.trait.Has w) (hr : ¬w.IsRef)
    (hslot : slot.holdsRef = false) (hc : S.Named) (h : m.assignedValue slot op v = .ok w) :
    slot.declared.Stores w.type := by
  obtain ⟨x, -, -, hdata⟩ := Machine.assignedValue_eq_ok h
  obtain ⟨ha, rfl⟩ := hdata hslot
  have hx : ¬x.IsRef := fun hx => hr (Value.retag_isRef.2 hx)
  rw [Heap.typeOf_of_not_isRef hx] at ha
  refine Ty.stores_retag ha fun className layout members e => ?_
  subst e
  have hsame : (Value.object className layout members).retag slot.declared =
      .object className layout members := by
    cases slot.declared <;> rfl
  rw [hsame] at hw
  exact accepts_object hc hw _ _ _ rfl

namespace Inv

/-- A variable that is written through has a type of a slot for references. -/
theorem types_of_written (hm : S.Inv c m) {name : String} {x : Variable}
    (hx : m.writableVariable name = .ok x) (hr : x.value.IsRef)
    (hname : (∃ e, S.Source e ∧ e.Assigns name) ∨ S.Stored c m (.ident name)) :
    S.Types x.ty := by
  rcases (hm.base.holding.writableVariable hx).1 hr with ht | ⟨rfl, hobj⟩
  · exact ht
  · rcases hname with ⟨e, he, hassigns⟩ | hident
    · rw [hobj]
      exact he.this hassigns
    · exact absurd hident.has.self id

/-- A write through a variable to the chunk that it refers to. -/
theorem write_referent (hm : S.Inv c m) {name : String} {x : Variable} {i k : Nat} {heap : Heap}
    (hbase : S.trait.Inv { m with heap }) (hx : m.writableVariable name = .ok x)
    (hi : x.value = .ref i) (hk : m.heap.Leads i k) (ht : S.Types x.ty) (hr : ¬w.IsRef)
    (hlive : S.Quiet c m.collector.collections → S.Live m.heap w)
    (hstores : S.Named → x.ty.Stores w.type) (hw : m.heap.write k w = .ok heap) :
    S.Inv c { m with heap } ∧ S.Later c m { m with heap } := by
  obtain ⟨old, hd, hold⟩ := hk.deref
  refine hm.write hbase hd hold hr hlive (fun hc => ⟨x.ty, ht, .inl (hstores hc)⟩) ?_ ?_ hw
  · intro hc hagree r hread ha
    obtain ⟨Γ, haligned⟩ := hm.aligned hc
    have hkeeps := (haligned.writableVariable hx).2.1
    exact hagree.stores ht hread (hm.arises hagree.named k old hd hold)
      ⟨hkeeps.suits hi hk hd hagree, .inl ha, .inr ha⟩ (hstores hagree.named)
  · -- the chunk holds nothing yet: both variables have the type it was allocated with, or
    -- one of them accepts void
    rintro hc Γ haligned rfl hagree hread hdefault
    rcases (haligned.writableVariable hx).2.1 i k .void hi hk hd hagree with ha | ⟨-, -, hty⟩
    · exact hagree.stores ht hread (hm.arises hagree.named k .void hd hold)
        ⟨.inl ha, .inr ⟨rfl, hdefault⟩, .inl ha⟩ (hstores hagree.named)
    · rw [← hty]
      exact (hstores hagree.named).1

/-- A variable gets other data. -/
theorem assignVariable (hm : S.Inv c m) {name : String}
    (hbase : S.trait.Inv (m.modifyFrame (·.assign name w))) (hr : ¬w.IsRef)
    (hlive : S.Quiet c m.collector.collections → S.Live m.heap w) :
    S.Inv c (m.modifyFrame (·.assign name w)) ∧
      S.Later c m (m.modifyFrame (·.assign name w)) := by
  refine hm.withFrames rfl rfl hbase fun hc Γ ha => Machine.Holding.modifyFrame ha ?_
  exact ha.current.assign fun x _ =>
    ⟨fun hr' => absurd hr' hr, keeps_of_not_isRef hr, hlive hc⟩

/-- A write to a part of the data of a chunk, which keeps its type. -/
theorem write_part (hm : S.Inv c m) {index : Nat} {old new : Value} {heap : Heap}
    (hbase : S.trait.Inv { m with heap }) (hd : m.heap.deref index = .ok old) (hold : ¬old.IsRef)
    (hnot : old ≠ .void) (hnew : ¬new.IsRef) (htype : new.type = old.type)
    (hlive : S.Quiet c m.collector.collections → S.Live m.heap new)
    (hw : m.heap.write index new = .ok heap) :
    S.Inv c { m with heap } ∧ S.Later c m { m with heap } := by
  refine hm.write hbase hd hold hnew hlive (fun hc => ?_) (fun _ _ r _ ha => ?_)
    (fun _ _ _ hvoid => absurd hvoid hnot) hw
  · rw [htype]
    exact hm.arises hc index old hd hold
  · rw [htype]
    exact ha

/-- A write through a reference in a slot that is not for references: of what it leads to
nothing was known but the types of data. -/
theorem write_stray (hm : S.Inv c m) {index : Nat} {new : Value} {heap : Heap}
    (hbase : S.trait.Inv { m with heap }) (hnot : ¬S.Uniform)
    (harises : ¬new.IsRef → S.Named → S.Arises new.type)
    (hw : m.heap.write index new = .ok heap) :
    S.Inv c { m with heap } ∧ S.Later c m { m with heap } := by
  refine ⟨⟨hbase, hm.started, hm.arises_write harises hw, ?_, fun hc => absurd hc.uniform hnot⟩,
    Nat.le_refl _, fun hc => absurd hc.uniform hnot⟩
  rintro (⟨huniform, -⟩ | hc)
  · exact absurd huniform hnot
  · exact absurd hc.uniform hnot

theorem assign (hm : S.Inv c m) {p : Place} {slot : Slot} {op : AssignOp} (hv : S.Stored c m v)
    (hdata : ¬v.IsRef ∨ ∃ m₀, S.Inv c m₀ ∧ m₀.LeadsToRef p)
    (hp : p.path ≠ [] ∨ ∃ name, p = .var name ∧
      ((∃ e, S.Source e ∧ e.Assigns name) ∨ S.Stored c m (.ident name)))
    (hl : m.locate p = .ok slot) (hw : m.assignedValue slot op v = .ok w)
    (h : m.writePlace slot.place w = .ok m') :
    S.Inv c m' ∧ S.Later c m m' ∧ S.Stored c m' w := by
  have hp' : p.path ≠ [] ∨ ∃ name, p = .var name := hp.imp_right fun ⟨name, h, _⟩ => ⟨name, h⟩
  have hfinds := Machine.finds_of_locate hp' hl
  obtain ⟨hbase, hhas⟩ := hm.base.assign hv.has
    (hdata.imp_right fun ⟨m₀, h₀, hr⟩ => ⟨m₀, h₀.base, hr⟩) hp' hl hw h
  have hlive := hm.live_assigned hv hw
  have hdirect : ∀ name, p = .var name → ¬w.IsRef := by
    rintro name rfl hr
    have hv' : ¬v.IsRef := by
      refine hdata.resolve_right fun ⟨m₀, _, hr⟩ => ?_
      obtain ⟨name, hlast⟩ := hr.endsInMember
      cases hlast
    exact hv' ((hm.base.assigned trivial hv.has hw).2.1 hr ▸ hr)
  suffices hstep : S.Inv c m' ∧ S.Later c m m' from
    ⟨hstep.1, hstep.2, (Stored.mk hhas hlive).later hstep.2⟩
  obtain ⟨old, new, rootTy, hold, hset, hcases⟩ := Machine.writePlace_cases h
  have hlive' : S.Quiet c m.collector.collections → S.Live m.heap new := fun hc =>
    (lenient_liveAt _).setAt hset ((hm.rootValue hold).live hc) (hlive hc)
  cases hfinds with
  | direct hvar _ _ =>
    obtain ⟨name, -, rfl⟩ | ⟨index, heap, hroot, -⟩ := hcases
    · cases hset
      exact hm.assignVariable hbase (hdirect _ hvar) hlive
    · cases hroot
  | referent hvar hx hi hk =>
    obtain ⟨name, hroot, -⟩ | ⟨index, heap, hroot, hwrite, rfl⟩ := hcases
    · cases hroot
    · cases hroot
      cases hset
      have hr := hdirect _ hvar
      obtain ⟨name, hname, hassigned⟩ := hp.resolve_left (by rw [hvar]; simp [Place.var])
      rw [hvar] at hname
      cases hname
      exact hm.write_referent hbase hx hi (Heap.terminal_eq_ok_iff.1 hk)
        (hm.types_of_written hx ⟨_, hi⟩ hassigned) hr hlive
        (fun hc => stores_assigned hhas hr rfl hc hw) hwrite
  | stray _ hroot hget he _ =>
    obtain ⟨ht, hnot⟩ := stray_of_enter ((hm.rootValue hroot).has.getAt hget).self he ⟨_, rfl⟩
    obtain ⟨name, hroot, -⟩ | ⟨index, heap, -, hwrite, rfl⟩ := hcases
    · cases hroot
    · cases hset
      exact hm.write_stray hbase hnot
        (fun hr hc => ⟨_, ht, .inl (stores_assigned hhas hr rfl hc hw)⟩) hwrite
  | @part root value whole part' rootTy' ty init s holdsRef hlast hroot hget he _ =>
    obtain ⟨a, l, hpath⟩ := List.exists_cons_of_ne_nil (List.append_ne_nil_of_right_ne_nil init
      (List.cons_ne_nil s []))
    simp only [hpath] at hset
    obtain ⟨htype, hnew, hdata', hnot⟩ := Value.type_setAt hset
    obtain ⟨name, -, rfl⟩ | ⟨index, heap, rfl, hwrite, rfl⟩ := hcases
    · exact hm.assignVariable hbase hnew hlive'
    · obtain ⟨x, hx, hpure⟩ := bind_eq_ok.1 hold
      cases pure_eq_ok.1 hpure
      exact hm.write_part hbase (mapError_eq_ok.1 hx) hdata' hnot hnew htype hlive' hwrite

/-- A native function leaves the heap and the collector alone, or collects. -/
theorem native (hm : S.Inv c m) {f : Native} (hf : f ∈ m.natives) {args : List Value}
    {world : World} {r : Except Fault Value} (ha : ∀ v ∈ args, S.Stored c m v)
    (h : f.run m.frames args m.toWorld = (r, world)) :
    S.Inv c { m with toWorld := world } ∧ S.Later c m { m with toWorld := world } ∧
      ∀ v, r = .ok v → S.Stored c { m with toWorld := world } v := by
  obtain ⟨hbase, -⟩ := hm.base.native hf (fun v hv => (ha v hv).has) h
  rw [hm.base.natives] at hf
  rcases Native.builtin_cases hf with hf | rfl | rfl
  · have hrun := hf _ _ _ _ _ h
    obtain ⟨hinv, hlater⟩ := hm.withFrames (n := { m with toWorld := world }) hrun.heap
      hrun.collector hbase fun _ Γ ha => by
        refine ⟨?_, ?_⟩
        · rw [hrun.heap]
          exact ha.frames
        · rw [hrun.heap]
          exact ha.chunks
    exact ⟨hinv, hlater, fun v hv => stored_scalar (hrun.scalar v hv)⟩
  · cases Native.bind_world h
    refine ⟨hm, .refl m, ?_⟩
    rintro v rfl
    obtain ⟨g, receiver, hg, ⟨className, layout, members, hd⟩, rfl⟩ := Native.bind_eq_ok_function h
    have harg : S.Stored c m (args.headD .void) := by
      cases args with
      | nil => exact stored_scalar trivial
      | cons a as => exact ha a List.mem_cons_self
    refine ⟨Trait.has_function (S.trait.rebound _ _ (hm.resolve harg hg).1.has.self), fun _ => ?_⟩
    refine Value.every_of_parts_eq_nil rfl ?_
    rintro _ ⟨⟩
    have hobject := hm.base.holding.chunks receiver _ hd
    exact ⟨.inr ⟨rfl, className, hobject.self.1⟩, _, hd, nofun,
      fun hc => hc.named _ hobject.self.1⟩
  · obtain ⟨rfl, n, rfl⟩ := Native.collect_run h
    obtain ⟨hinv, hlater⟩ := hm.collectWith m.frames.roots
    refine ⟨hinv, hlater, ?_⟩
    rintro _ ⟨⟩
    exact stored_scalar trivial

end Inv

end RefSlots

end HeapScript
