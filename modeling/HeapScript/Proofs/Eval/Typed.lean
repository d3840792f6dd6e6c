import HeapScript.Proofs.Eval.Isolation
import HeapScript.Proofs.Eval.Reachable
import HeapScript.Proofs.Machine.Typed

/-!
# Evaluation keeps the types of variables

* `typing` is the law: variables hold what they are declared for. Data is never a
  reference, and what a slot accepts it may hold.
* `Reachable.typed`: so it is on every reachable machine.
-/

namespace HeapScript

theorem not_isRef_of_arrayOf {items : List Value} {v : Value} (h : arrayOf items = .ok v) :
    ¬v.IsRef := by
  obtain ⟨tag, rfl⟩ := eq_array_of_arrayOf h
  nofun

/-- The law that variables hold what they are declared for. -/
def typing : Law where
  Source _ := True
  Code _ := True
  Declares _ _ := True
  Inv := Machine.Typed
  Later _ _ := True
  Err _ _ := True
  Stored _ _ := True
  Data _ v := ¬v.IsRef
  Fits _ _ ty v := ty.Holds v
  later_refl _ := trivial
  later_trans _ _ := trivial
  err_of_later _ _ _ := trivial
  stored_later _ _ := trivial
  data_later _ hv := hv
  fits_later _ hv := hv
  stored_of_data _ := trivial
  declares_of_decl _ := trivial
  declares_of_param _ _ := trivial
  declares_of_member _ _ := trivial
  fault _ := trivial
  missing _ _ := trivial
  located _ _ _ _ _ := trivial
  lookup _ _ := trivial
  deref _ _ h := Machine.not_isRef_of_deref h
  num _ _ := nofun
  str _ _ := nofun
  bool _ _ := nofun
  void _ := nofun
  function _ _ _ _ _ _ := nofun
  array _ _ _ _ h := not_isRef_of_arrayOf h
  binary _ _ h := (Value.binary_eq_ok h).not_isRef
  unary _ h := (Value.unary_eq_ok h).not_isRef
  member _ _ _ _ := trivial
  element _ _ := trivial
  object _ _ := nofun
  reference _ _ _ h := .inl (Machine.expectReference_eq_ok h).2.1
  conform _ _ hv h := .inr (.inl (Heap.accepts_of_conform hv h).1)
  default _ ty _ := ty.holds_default
  classDef _ _ _ _ := .inr (.inl (Ty.accepts_self _))
  returned _ _ _ _ := trivial
  touch hm hg := ⟨hm.modifyFrame (hm.current.congr (hg _).1), trivial, fun _ _ => trivial⟩
  pending hm _ := ⟨hm.modifyFrame (hm.current.congr rfl), trivial⟩
  declare name x hm hx := ⟨hm.declare name hx, trivial⟩
  allocate {m flags ty name init line v} hm _ _ _ _ := by
    have hm' : ({ m with heap := (m.heap.allocate v).2 } : Machine).Typed := hm.congr rfl
    have hdeclared := hm'.declare name
      (x := { ty, value := .ref (m.heap.allocate v).1, isConst := flags.isConst })
      (Ty.holds_ref _ _)
    exact ⟨hdeclared.congr (Machine.frames_noteAllocation _), trivial⟩
  assign hm _ hv _ hl hw h := by
    have hp := hv.imp_right fun ⟨_, _, hp⟩ => hp.endsInMember.path_ne_nil
    exact ⟨hm.assign hl hp hw h, trivial, trivial⟩
  native hm _ _ _ _ _ := ⟨hm.congr rfl, trivial, fun _ _ => trivial, fun _ _ => trivial⟩
  body _ := Stmt.every_true _
  enter {m f} invokedAs name values hm _ hv := hm.enter (hm.current.calleeFrame f invokedAs name hv)
  leave {m m' f} hm hc _ _ := ⟨hm.congr hc.frames.pop_eq, trivial, fun _ _ => trivial⟩
  err_of_enter _ _ := trivial

namespace Machine

variable {m : Machine}

theorem typed_create (config : Config) (natives : Natives) (console : Console) (files : Files) :
    (create config natives console files).Typed := by
  intro f hf
  cases List.mem_singleton.1 hf
  exact ⟨List.nodup_nil, by rintro p ⟨⟩⟩

theorem Typed.bindArguments (hm : m.Typed) (args : List String) : (m.bindArguments args).Typed := by
  intro f hf
  rcases List.mem_append.1 hf with hf | hf
  · exact hm f (List.mem_append_left _ hf)
  · cases List.mem_singleton.1 hf
    exact (hm _ m.frames.main_mem_frames).declare _ (.inr (.inl (Ty.accepts_self _)))

theorem Reachable.typed (h : m.Reachable) : m.Typed := by
  induction h with
  | create config console files => exact typed_create config _ console files
  | @run m m' fuel name tokens p _ _ hrun ih =>
    have hm : ({ m with sourceName := p.sourceName } : Machine).Typed := ih.congr rfl
    have hafter := Law.after_runStatements (L := typing) fuel
      (fun s _ => s.every_true : ∀ s ∈ p.statements, s.Within typing.Source typing.Code) hm
    exact (hafter.next hrun).inv
  | bindArguments args _ ih => exact ih.bindArguments args
  | collectGarbage _ ih => exact ih.congr rfl

end Machine

end HeapScript
