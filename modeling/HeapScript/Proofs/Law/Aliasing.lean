import HeapScript.Proofs.Machine.Aliased

/-!
# The law of aliases

* `RefSlots.law` is the law that data in chunks is of a type that some slot stores, and
  that references lead to data that fits, as long as only slots for references hold them
  and no collection has taken place.
* `inv_of_reachableBy`: what is kept on every machine that programs with these slots can
  reach, and `inv_of_steadyBy` if collections take place only between runs.
-/

namespace HeapScript

namespace RefSlots

variable (S : RefSlots) (c : Nat)

/-- The law of chunks that hold what slots store, and of references that lead to data that
fits as long as `Quiet` holds. -/
def law : Law where
  Source := S.Source
  Code := S.Code
  Declares b ty := b = true → S.Types ty
  Inv := S.Inv c
  Later := S.Later c
  Err _ _ := True
  Stored := S.Stored c
  Data m v := S.Stored c m v ∧ ¬v.IsRef
  Fits := S.Fits c
  later_refl := .refl
  later_trans := .trans
  err_of_later _ _ _ := trivial
  stored_later hl hv := hv.later hl
  data_later hl hv := ⟨hv.1.later hl, hv.2⟩
  fits_later hl hv := hv.later hl
  stored_of_data hv := hv.1
  declares_of_decl h hr := types_of_decl h hr
  declares_of_param hf hp := S.trait.declares_of_param hf.1.has.self hp
  declares_of_member hc hp := S.trait.declares_of_member hc.1.has.self hp
  fault _ := trivial
  missing _ _ := trivial
  located _ _ _ _ _ := trivial
  lookup hm h := hm.lookup h
  deref hm hv h := hm.resolve hv (mapError_eq_ok.1 h)
  num _ _ := ⟨stored_scalar trivial, nofun⟩
  str _ _ := ⟨stored_scalar trivial, nofun⟩
  bool _ _ := ⟨stored_scalar trivial, nofun⟩
  void _ := ⟨stored_scalar trivial, nofun⟩
  function _ _ _ he hd hb := by
    refine ⟨⟨Trait.has_function (S.trait.function he hd hb), fun _ => ?_⟩, nofun⟩
    exact Value.every_of_parts_eq_nil rfl nofun
  array he hmem hlen hi h := by
    obtain ⟨hhas, hr⟩ :=
      Trait.has_arrayOf he hmem hlen (fun x hx => ⟨(hi x hx).1.has, (hi x hx).2⟩) h
    exact ⟨⟨hhas, fun hc => (lenient_liveAt _).arrayOf (fun x hx => (hi x hx).1.live hc) h⟩, hr⟩
  binary ha hb h :=
    ⟨⟨Trait.has_binary ha.1.has hb.1.has ha.2 hb.2 h,
      fun hc => (lenient_liveAt _).binary (ha.1.live hc) (hb.1.live hc) h⟩,
      (Value.binary_eq_ok h).not_isRef⟩
  unary _ h := ⟨stored_scalar (Value.unary_eq_ok h), (Value.unary_eq_ok h).not_isRef⟩
  member _ ho hd h := stored_member ho hd.1 h
  element hd h := ⟨hd.1.has.part (Value.enter_mem_parts h),
    fun hc => (hd.1.live hc).part (Value.enter_mem_parts h)⟩
  object {m c members} hc hm := by
    have hobject := S.trait.law.object (m := m) ⟨hc.1.has, nofun⟩
      (hm.imp fun _ _ h => ⟨h.declares, h.isRef, h.has⟩)
    refine ⟨⟨hobject.1, fun hq => (lenient_liveAt _).object ?_⟩, hobject.2⟩
    exact forall_of_forall₂ (hm.imp fun _ _ h => h.live hq)
  reference hm ht hv h := hm.reference hv (ht rfl) h
  conform _ _ hv h := fits_conform hv.1 hv.2 h
  default _ ty _ := fits_default ty
  classDef _ c _ hc := by
    refine ⟨⟨Value.every_of_parts_eq_nil rfl hc, fun _ => ?_⟩, nofun,
      iff_of_false nofun Bool.false_ne_true, fun _ _ => .inl ⟨Ty.accepts_self _, nofun⟩, nofun⟩
    exact Value.every_of_parts_eq_nil rfl trivial
  returned _ hf hv h := stored_returned hf.1.has.self hv h
  touch hm hg := by
    obtain ⟨hinv, hlater⟩ := hm.withFrames (n := Machine.modifyFrame _ _) rfl rfl
      ⟨hm.base.natives, hm.base.heap, hm.base.holding.touch hg⟩
      fun _ Γ ha => Machine.Holding.touch ha hg
    exact ⟨hinv, hlater, fun _ _ => trivial⟩
  pending hm hv := hm.withFrames rfl rfl
    ⟨hm.base.natives, hm.base.heap, hm.base.holding.pending hv.has⟩
    fun hc Γ ha => Machine.Holding.pending ha (hv.live hc)
  declare name x hm hx := hm.declare name hx
  allocate hm hcode halloc hv ha := by
    obtain ⟨hinv, hlater⟩ := hm.allocate hcode halloc hv ha
    obtain ⟨hinv', hlater'⟩ := hinv.noteAllocation
    exact ⟨hinv', hlater.trans hlater'⟩
  assign hm hv hd hp hl hw h := hm.assign hv (hd.imp_left And.right) hp hl hw h
  native hm hf _ ha _ h := by
    obtain ⟨hinv, hlater, hr⟩ := hm.native hf ha h
    exact ⟨hinv, hlater, hr, fun _ _ => trivial⟩
  body hf := S.trait.body hf.1.has.self
  enter invokedAs name values hm hf hv := hm.enter invokedAs name hf.1 hv
  leave {m m' f} _ _ hm' hl := by
    obtain ⟨hinv, hlater⟩ := hm'.withFrames (n := m'.leave) rfl rfl
      ⟨hm'.base.natives, hm'.base.heap, hm'.base.holding.leave⟩
      fun _ Γ ha => Machine.Holding.leave ha
    have henter : S.Later c m m' := ⟨hl.collections, hl.evolves⟩
    refine ⟨hinv, henter.trans hlater, fun v hv => ?_⟩
    refine ⟨hm'.base.holding.current.pending v hv, fun hc => ?_⟩
    obtain ⟨Γ, ha⟩ := hm'.aligned hc
    exact ha.current.pending v hv
  err_of_enter _ _ := trivial

variable {S c} {m : Machine}

/-! ## Machines that programs reach -/

theorem inv_create (config : Config) (console : Console) (files : Files) :
    S.Inv 0 (Machine.create config .builtin console files) := by
  have hempty : ∀ i d, (Machine.create config .builtin console files).heap.deref i ≠ .ok d := by
    intro i d hd
    obtain ⟨chunk, hchunk, -⟩ := Heap.deref_eq_ok_iff.1 hd
    cases hchunk
  refine ⟨Trait.inv_create config console files, Nat.le_refl _, fun _ k d hd => ?_,
    fun _ i hu => ?_, fun _ => ⟨fun _ => .var, fun f hf => ?_, fun i v hd => ?_⟩⟩
  · exact absurd hd (hempty k d)
  · obtain ⟨d, hd⟩ := Heap.exists_deref hu
    exact absurd hd (hempty i d)
  · cases List.mem_singleton.1 hf
    exact ⟨by rintro p ⟨⟩, by rintro v ⟨⟩⟩
  · exact absurd hd (hempty i v)

theorem Inv.named (hm : S.Inv c m) (name : String) : S.Inv c { m with sourceName := name } :=
  (hm.withFrames (n := { m with sourceName := name }) rfl rfl
    (hm.base.named name)
    fun _ _ ha => ⟨ha.frames, ha.chunks⟩).1

theorem Inv.bindArguments (hm : S.Inv c m) (args : List String) :
    S.Inv c (m.bindArguments args) := by
  refine (hm.withFrames (n := m.bindArguments args) rfl rfl (hm.base.bindArguments args)
    fun _ Γ ha => ?_).1
  refine Machine.Holding.bindArguments ha args ⟨nofun, keeps_of_not_isRef nofun, ?_⟩
  refine (lenient_liveAt _).array fun x hx => ?_
  obtain ⟨s, -, rfl⟩ := List.mem_map.1 hx
  exact (lenient_liveAt _).scalar trivial

/-- A collection between runs frees nothing that is referred to. -/
theorem Inv.collectGarbage (hm : S.Inv m.collector.collections m) :
    S.Inv m.collectGarbage.2.collector.collections m.collectGarbage.2 := by
  have hw := hm.base.heap
  refine ⟨hm.base.collectWith _, Nat.le_refl _, fun hc k d hd => ?_, fun hs => ?_, fun hc => ?_⟩
  · exact hm.arises hc k d (Heap.deref_of_collect hw hd)
  · exact (hm.grounded (hs.imp_right fun hc => ⟨hc.uniform, Nat.le_refl _⟩)).collect hw _
  · obtain ⟨Γ, ha⟩ := hm.aligned ⟨hc.uniform, Nat.le_refl _⟩
    exact ⟨Γ, ha.collect hw⟩

/-- What is kept whenever collections take place. -/
theorem inv_of_reachableBy (h : m.ReachableBy S.Admits) : S.Inv 0 m :=
  h.inv (S.law 0) inv_create (fun name hm => hm.named name) (fun args hm => hm.bindArguments args)
    (fun hm => (hm.collectWith _).1) fun _ hp => Program.within hp.exprs hp.stmts

/-- What is kept if they take place only between runs: all that is known. -/
theorem inv_of_steadyBy (h : m.SteadyBy S.Admits) : S.Inv m.collector.collections m := by
  induction h with
  | create config console files => exact inv_create config console files
  | @run m m' fuel name tokens p _ _ hp hrun hcount ih =>
    have hafter := Law.after_runStatements (L := S.law m.collector.collections) fuel
      (Program.within hp.exprs hp.stmts) (ih.named p.sourceName)
    rw [hcount]
    exact (hafter.next hrun).inv
  | bindArguments args _ ih => exact ih.bindArguments args
  | collectGarbage _ ih => exact ih.collectGarbage

end RefSlots

end HeapScript
