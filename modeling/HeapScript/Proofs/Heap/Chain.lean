import HeapScript.Proofs.Heap.Collect
import HeapScript.Proofs.Heap.Store
import HeapScript.Proofs.Value.Type
import Mathlib.Data.Fintype.Card

/-!
# Chains of references

* `Heap.Leads`: the chain of references from a chunk ends at a chunk that holds data.
  `terminal_eq_ok_iff`: following references for as long as the heap has chunks finds that
  one, since a chain that ends visits no chunk twice.
* `Heap.Grounded`: every chain from a chunk in use ends so. New chunks, writes of data
  over data and collections keep it.
* `Heap.HasType`: what looking at the type of a value gives if nothing bounds how many
  references are followed. `Grounded.hasType_iff`: it gives `typeOf`.
-/

namespace HeapScript

namespace Heap

variable {h h' : Heap} {n n' i j k k' : Nat} {v d : Value}

theorem exists_deref (hu : h.isUsed i = true) : ∃ d, h.deref i = .ok d := by
  obtain ⟨c, hc, hu⟩ := isUsed_iff.1 hu
  exact ⟨c.data, deref_eq_ok_iff.2 ⟨c, hc, hu, rfl⟩⟩

theorem exists_deref_error (hu : h.isUsed i ≠ true) : ∃ e, h.deref i = .error e := by
  cases hd : h.deref i with
  | ok d => exact absurd (isUsed_of_deref hd) hu
  | error e => exact ⟨e, rfl⟩

theorem deref_eq_error_iff {e : HeapError} : h.deref i = .error e ↔
    h.isUsed i = false ∧ e = if i < h.capacity then .nullPointer i else .notOnHeap i := by
  by_cases hu : h.isUsed i = true
  · obtain ⟨d, hd⟩ := exists_deref hu
    simp [hd, hu]
  · rw [Bool.not_eq_true] at hu
    rw [deref_of_not_isUsed hu]
    simp [hu, eq_comm]

/-! ## Chains that end -/

/-- So many references lead from the first chunk to the second, which holds data. -/
inductive LeadsIn (h : Heap) : Nat → Nat → Nat → Prop
  | here {i : Nat} {d : Value} : h.deref i = .ok d → ¬d.IsRef → LeadsIn h 0 i i
  | next {n i j k : Nat} : h.deref i = .ok (.ref j) → LeadsIn h n j k → LeadsIn h (n + 1) i k

/-- The chain of references from the first chunk ends at the second, which holds data. -/
def Leads (h : Heap) (i k : Nat) : Prop := ∃ n, h.LeadsIn n i k

theorem Leads.here (hd : h.deref i = .ok d) (hr : ¬d.IsRef) : h.Leads i i := ⟨0, .here hd hr⟩

theorem Leads.next (hd : h.deref i = .ok (.ref j)) (hj : h.Leads j k) : h.Leads i k :=
  have ⟨n, hj⟩ := hj
  ⟨n + 1, .next hd hj⟩

theorem LeadsIn.unique (hk : h.LeadsIn n i k) (hk' : h.LeadsIn n' i k') : n = n' ∧ k = k' := by
  induction hk generalizing n' with
  | here hd hr =>
    cases hk' with
    | here _ _ => exact ⟨rfl, rfl⟩
    | next hd' _ =>
      rw [hd] at hd'
      cases hd'
      exact absurd ⟨_, rfl⟩ hr
  | next hd _ ih =>
    cases hk' with
    | here hd' hr =>
      rw [hd] at hd'
      cases hd'
      exact absurd ⟨_, rfl⟩ hr
    | next hd' hj =>
      rw [hd] at hd'
      cases hd'
      obtain ⟨rfl, rfl⟩ := ih hj
      exact ⟨rfl, rfl⟩

theorem Leads.unique (hk : h.Leads i k) (hk' : h.Leads i k') : k = k' :=
  have ⟨_, hk⟩ := hk
  have ⟨_, hk'⟩ := hk'
  (hk.unique hk').2

theorem Leads.deref (hk : h.Leads i k) : ∃ d, h.deref k = .ok d ∧ ¬d.IsRef := by
  obtain ⟨n, hk⟩ := hk
  induction hk with
  | here hd hr => exact ⟨_, hd, hr⟩
  | next _ _ ih => exact ih

theorem Leads.isUsed (hk : h.Leads i k) : h.isUsed i = true := by
  obtain ⟨_, hk⟩ := hk
  cases hk with
  | here hd _ => exact isUsed_of_deref hd
  | next hd _ => exact isUsed_of_deref hd

theorem Leads.lt_capacity (hk : h.Leads i k) : i < h.capacity :=
  lt_capacity_of_isUsed hk.isUsed

/-- A chain passes through chunks at every smaller distance from its end. -/
theorem LeadsIn.exists_nearer (hk : h.LeadsIn n i k) {r : Nat} (hr : r ≤ n) :
    ∃ j, h.LeadsIn r j k := by
  induction hk with
  | here hd hdata =>
    obtain rfl := Nat.le_zero.1 hr
    exact ⟨_, .here hd hdata⟩
  | @next n i j k hd hj ih =>
    rcases Nat.le_succ_iff.1 hr with hr | rfl
    · exact ih hr
    · exact ⟨i, .next hd hj⟩

/-- A chain that ends is shorter than the heap: the chunks on it are at different
distances from its end, so they are different. -/
theorem LeadsIn.lt_capacity (hk : h.LeadsIn n i k) : n < h.capacity := by
  have hchunk : ∀ r : Fin (n + 1), ∃ j : Fin h.capacity, h.LeadsIn r j k := by
    intro r
    obtain ⟨j, hj⟩ := hk.exists_nearer (Nat.lt_succ_iff.1 r.isLt)
    exact ⟨⟨j, Leads.lt_capacity ⟨r, hj⟩⟩, hj⟩
  choose f hf using hchunk
  have hinj : Function.Injective f := by
    intro r s hrs
    have hr := hf r
    rw [hrs] at hr
    exact Fin.ext (hr.unique (hf s)).1
  have hcard := Fintype.card_le_of_injective f hinj
  rwa [Fintype.card_fin, Fintype.card_fin] at hcard

theorem leads_of_follow (hf : h.follow n i = .ok k) : h.Leads i k := by
  induction n generalizing i with
  | zero => cases hf
  | succ n ih =>
    rw [follow] at hf
    split at hf
    · cases hf
    · rename_i hd
      exact .next hd (ih hf)
    · rename_i hne hd
      cases hf
      refine .here hd ?_
      rintro ⟨j, hj⟩
      exact hne j hj

theorem LeadsIn.follow (hk : h.LeadsIn n i k) {fuel : Nat} (hn : n < fuel) :
    h.follow fuel i = .ok k := by
  induction hk generalizing fuel with
  | here hd hr =>
    obtain ⟨fuel, rfl⟩ := Nat.exists_eq_succ_of_ne_zero (Nat.ne_of_gt hn)
    rw [Heap.follow, hd]
    split
    · rename_i e
      cases e
    · rename_i j e
      cases e
      exact absurd ⟨j, rfl⟩ hr
    · rfl
  | next hd _ ih =>
    obtain ⟨fuel, rfl⟩ := Nat.exists_eq_succ_of_ne_zero (Nat.ne_of_gt (Nat.zero_lt_of_lt hn))
    rw [Heap.follow, hd]
    exact ih (Nat.lt_of_succ_lt_succ hn)

/-- The bound on the number of references that are followed cuts no chain short that
ends. -/
theorem terminal_eq_ok_iff : h.terminal i = .ok k ↔ h.Leads i k :=
  ⟨leads_of_follow, fun ⟨_, hk⟩ => hk.follow (Nat.lt_succ_of_lt hk.lt_capacity)⟩

theorem resolve_of_leads (hk : h.Leads i k) (hd : h.deref k = .ok d) :
    h.resolve (.ref i) = .ok d := by
  rw [resolve, terminal_eq_ok_iff.2 hk]
  exact hd

/-- The data that a reference leads to lies in the last chunk of its chain. -/
theorem resolve_ref_eq_ok (hr : h.resolve (.ref i) = .ok d) :
    ∃ k, h.Leads i k ∧ h.deref k = .ok d := by
  rw [resolve] at hr
  split at hr
  · cases hr
  · rename_i k hk
    exact ⟨k, terminal_eq_ok_iff.1 hk, hr⟩

/-! ## Heaps without cycles -/

/-- The chain of references from every chunk in use ends at data. -/
def Grounded (h : Heap) : Prop := ∀ i, h.isUsed i = true → ∃ k, h.Leads i k

/-- What is in use stays in use; references stay as they are, and data stays data. -/
def Extends (h h' : Heap) : Prop :=
  ∀ i d, h.deref i = .ok d → ∃ d', h'.deref i = .ok d' ∧ (d' = d ∨ ¬d.IsRef ∧ ¬d'.IsRef)

theorem Leads.extends (hk : h.Leads i k) (he : h.Extends h') : h'.Leads i k := by
  obtain ⟨n, hk⟩ := hk
  induction hk with
  | here hd hr =>
    obtain ⟨d', hd', rfl | hr'⟩ := he _ _ hd
    · exact .here hd' hr
    · exact .here hd' hr'.2
  | next hd _ ih =>
    obtain ⟨d', hd', rfl | hr'⟩ := he _ _ hd
    · exact .next hd' ih
    · exact absurd ⟨_, rfl⟩ hr'.1

theorem extends_allocate (hw : h.WellFormed) (v : Value) : h.Extends (h.allocate v).2 :=
  fun _ d hd => ⟨d, deref_allocate_of_deref hw hd v, .inl rfl⟩

theorem Grounded.allocate (hg : h.Grounded) (hw : h.WellFormed)
    (hv : ∀ i, v = .ref i → ∃ k, h.Leads i k) : (h.allocate v).2.Grounded := by
  intro i hu
  rw [isUsed_allocate hw, Bool.or_eq_true, beq_iff_eq] at hu
  rcases hu with hu | rfl
  · obtain ⟨k, hk⟩ := hg i hu
    exact ⟨k, hk.extends (extends_allocate hw v)⟩
  · have hd : (h.allocate v).2.deref (h.allocate v).1 = .ok v := by
      rw [deref_allocate hw, if_pos rfl]
    by_cases hr : v.IsRef
    · obtain ⟨j, rfl⟩ := hr
      obtain ⟨k, hk⟩ := hv j rfl
      exact ⟨k, .next hd (hk.extends (extends_allocate hw _))⟩
    · exact ⟨_, .here hd hr⟩

theorem extends_write (hd : h.deref i = .ok d) (hr : ¬d.IsRef) (hv : ¬v.IsRef)
    (hw : h.write i v = .ok h') : h.Extends h' := by
  intro j x hx
  rw [deref_write hw]
  split
  · rename_i e
    subst e
    rw [hd] at hx
    cases hx
    exact ⟨v, rfl, .inr ⟨hr, hv⟩⟩
  · exact ⟨x, hx, .inl rfl⟩

theorem Grounded.write (hg : h.Grounded) (hd : h.deref i = .ok d) (hr : ¬d.IsRef) (hv : ¬v.IsRef)
    (hw : h.write i v = .ok h') : h'.Grounded := by
  intro j hu
  rw [isUsed_write hw] at hu
  obtain ⟨k, hk⟩ := hg j hu
  exact ⟨k, hk.extends (extends_write hd hr hv hw)⟩

/-- A collection makes nothing that was not there. -/
theorem collect_extends (hw : h.WellFormed) (roots : List Value) :
    (h.collect roots).2.Extends h :=
  fun _ d hd => ⟨d, deref_of_collect hw hd, .inl rfl⟩

/-- A collection keeps the whole chain from a chunk that it keeps. -/
theorem Leads.collect (hk : h.Leads i k) (hw : h.WellFormed) {roots : List Value}
    (hu : (h.collect roots).2.isUsed i = true) : (h.collect roots).2.Leads i k := by
  obtain ⟨n, hk⟩ := hk
  induction hk with
  | here hd hr =>
    rw [← deref_collect hw hu] at hd
    exact .here hd hr
  | next hd hj ih =>
    have hreach : h.Reach roots _ :=
      .step ((isUsed_collect hw roots _).1 hu).2 hd (.ref _)
    have huj := (isUsed_collect hw roots _).2 ⟨Leads.isUsed ⟨_, hj⟩, hreach⟩
    rw [← deref_collect hw hu] at hd
    exact .next hd (ih huj)

theorem Grounded.collect (hg : h.Grounded) (hw : h.WellFormed) (roots : List Value) :
    (h.collect roots).2.Grounded := by
  intro i hu
  obtain ⟨k, hk⟩ := hg i ((isUsed_collect hw roots i).1 hu).1
  exact ⟨k, hk.collect hw hu⟩

/-- On a heap without cycles following references fails only at the first chunk. -/
theorem Grounded.terminal (hg : h.Grounded) (i : Nat) :
    (∃ k, h.Leads i k ∧ h.terminal i = .ok k) ∨
      ∃ e, h.deref i = .error e ∧ h.terminal i = .error e := by
  by_cases hu : h.isUsed i = true
  · obtain ⟨k, hk⟩ := hg i hu
    exact .inl ⟨k, hk, terminal_eq_ok_iff.2 hk⟩
  · obtain ⟨e, he⟩ := exists_deref_error hu
    refine .inr ⟨e, he, ?_⟩
    rw [Heap.terminal, follow, he]

/-- Whether the chunk refers to itself. -/
def refersToSelf (h : Heap) (i : Nat) : Bool :=
  match h.deref i with
  | .ok (.ref j) => j == i
  | _ => false

theorem deref_of_refersToSelf (hr : h.refersToSelf i = true) : h.deref i = .ok (.ref i) := by
  rw [refersToSelf] at hr
  split at hr
  · rename_i hd
    rw [hd, beq_iff_eq.1 hr]
  · cases hr

/-- Following references from a chunk that refers to itself is cut off. -/
theorem terminal_of_self (hd : h.deref i = .ok (.ref i)) :
    h.terminal i = .error (.notOnHeap i) := by
  have hfollow : ∀ n, h.follow n i = .error (.notOnHeap i) := by
    intro n
    induction n with
    | zero => rfl
    | succ n ih =>
      rw [follow, hd]
      exact ih
  exact hfollow _

/-! ## Types -/

/-- What looking at the type of a value gives: the type of the data that it leads to, and
`null` if the chain of references leads to no data. Nothing bounds the length of the
chain. -/
inductive HasType (h : Heap) : Value → Ty → Prop
  | data {v : Value} : ¬v.IsRef → HasType h v v.type
  | next {i : Nat} {d : Value} {t : Ty} : h.deref i = .ok d → HasType h d t → HasType h (.ref i) t
  | null {i : Nat} {e : HeapError} : h.deref i = .error e → HasType h (.ref i) (.named "null")

theorem HasType.unique {t u : Ty} (ht : h.HasType v t) (hu : h.HasType v u) : t = u := by
  induction ht generalizing u with
  | data hv =>
    cases hu with
    | data _ => rfl
    | next _ _ => exact absurd ⟨_, rfl⟩ hv
    | null _ => exact absurd ⟨_, rfl⟩ hv
  | next hd _ ih =>
    cases hu with
    | data hv => exact absurd ⟨_, rfl⟩ hv
    | next hd' hu =>
      rw [hd] at hd'
      cases hd'
      exact ih hu
    | null hd' =>
      rw [hd] at hd'
      cases hd'
  | null hd =>
    cases hu with
    | data hv => exact absurd ⟨_, rfl⟩ hv
    | next hd' _ =>
      rw [hd] at hd'
      cases hd'
    | null _ => rfl

/-- The type of a reference to a chunk that refers to itself is looked for without end. -/
theorem not_hasType_of_self (hd : h.deref i = .ok (.ref i)) {t : Ty} : ¬h.HasType (.ref i) t := by
  intro ht
  generalize hv : Value.ref i = v at ht
  induction ht with
  | data hr => exact hr ⟨i, hv.symm⟩
  | next hd' _ ih =>
    cases hv
    rw [hd] at hd'
    cases hd'
    exact ih rfl
  | null hd' =>
    cases hv
    rw [hd] at hd'
    cases hd'

theorem Leads.hasType (hk : h.Leads i k) (hd : h.deref k = .ok d) : h.HasType (.ref i) d.type := by
  obtain ⟨n, hk⟩ := hk
  induction hk with
  | here hd' hr =>
    rw [hd] at hd'
    cases hd'
    exact .next hd (.data hr)
  | next hd' _ ih => exact .next hd' (ih hd)

theorem typeOf_of_leads (hk : h.Leads i k) (hd : h.deref k = .ok d) :
    h.typeOf (.ref i) = d.type :=
  typeOf_of_resolve (resolve_of_leads hk hd)

theorem typeOf_of_not_leads (hi : ∀ k, ¬h.Leads i k) : h.typeOf (.ref i) = .named "null" := by
  rw [typeOf]
  split
  · rename_i hr
    obtain ⟨k, hk, -⟩ := resolve_ref_eq_ok hr
    exact absurd hk (hi k)
  · rfl

/-- Where looking at the type of a value ends, the bound on the number of references
changes nothing. -/
theorem HasType.eq_typeOf {t : Ty} (ht : h.HasType v t) : t = h.typeOf v := by
  induction ht with
  | data hv => exact (typeOf_of_not_isRef hv).symm
  | @next i d t hd _ ih =>
    rw [ih]
    by_cases hr : d.IsRef
    · obtain ⟨j, rfl⟩ := hr
      by_cases hj : ∃ k, h.Leads j k
      · obtain ⟨k, hk⟩ := hj
        obtain ⟨d, hdata, -⟩ := hk.deref
        rw [typeOf_of_leads hk hdata, typeOf_of_leads (hk.next hd) hdata]
      · rw [typeOf_of_not_leads fun k hk => hj ⟨k, hk⟩, typeOf_of_not_leads]
        intro k hk
        obtain ⟨n, hk⟩ := hk
        cases hk with
        | here hd' hr =>
          rw [hd] at hd'
          cases hd'
          exact hr ⟨_, rfl⟩
        | next hd' hk =>
          rw [hd] at hd'
          cases hd'
          exact hj ⟨k, _, hk⟩
    · rw [typeOf_of_not_isRef hr, typeOf_of_leads (.here hd hr) hd]
  | null hd =>
    refine (typeOf_of_not_leads fun k hk => ?_).symm
    obtain ⟨_, hd'⟩ := exists_deref hk.isUsed
    rw [hd] at hd'
    cases hd'

/-- On a heap without cycles looking at the type of a value ends, and gives `typeOf`. -/
theorem Grounded.hasType_iff (hg : h.Grounded) {t : Ty} : h.HasType v t ↔ t = h.typeOf v := by
  have htype : h.HasType v (h.typeOf v) := by
    by_cases hr : v.IsRef
    · obtain ⟨i, rfl⟩ := hr
      rcases hg.terminal i with ⟨k, hk, -⟩ | ⟨e, he, ht⟩
      · obtain ⟨d, hd, -⟩ := hk.deref
        rw [typeOf_of_leads hk hd]
        exact hk.hasType hd
      · rw [typeOf, resolve, ht]
        exact .null he
    · rw [typeOf_of_not_isRef hr]
      exact .data hr
  exact ⟨HasType.eq_typeOf, fun ht => ht ▸ htype⟩

end Heap

end HeapScript
