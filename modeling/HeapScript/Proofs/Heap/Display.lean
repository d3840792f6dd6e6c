import HeapScript.Proofs.Heap.Chain
import HeapScript.Proofs.Heap.History
import HeapScript.Proofs.Value.References
import Mathlib.Logic.Relation

/-!
# How references are shown

A reference is shown by the data of its chunk, and so are the references in there. On
the way down from the root no chunk is entered twice.

* `Heap.showing` is how a reference below given chunks is shown, with no bound on how deep
  references are nested: what is left of the chunks in use gets less at every one.
* `Heap.Met` holds of the references that showing a value comes upon, with the chunks on
  the way. `Met.distinct`: these are different ones in use.
* `renderRef_eq`: showing a reference under a bound of as many references as the heap has
  chunks is showing it without one.
* `Heap.Expands`: a value with the data of chunks in the place of references, at every
  depth. There is one exactly where no reference cycle can be reached (`Heap.Acyclic`), and
  `Expands.display`: then it shows the same text.
* `display_exact` puts this together.
-/

namespace HeapScript

/-- How a reference is shown: as one to a chunk that is being shown already, as one that
leads nowhere, or by the text of the data in its chunk. -/
inductive Showing where
  | cycle
  | dangling
  | data (text : String)

/-- The text of a reference to a chunk that is shown in this way. -/
def Showing.text (index : Nat) : Showing → String
  | cycle => "<cycle " ++ Value.showIndex index ++ ">"
  | dangling => "<dangling " ++ Value.showIndex index ++ ">"
  | data text => text

namespace Heap

open Relation (ReflTransGen TransGen)

variable {h : Heap} {i j : Nat} {v w d : Value} {e : HeapError} {path path' : List Nat}

/-! ## Showing without a bound -/

/-- The chunks in use that are not on a path. -/
def offPath (h : Heap) (path : List Nat) : List Nat :=
  h.inUse.filter fun j => j ∉ path

theorem length_offPath_cons (hi : i ∉ path) (hu : h.isUsed i = true) :
    (h.offPath (i :: path)).length < (h.offPath path).length := by
  have hcons : h.offPath (i :: path) = (h.offPath path).filter fun j => j ≠ i := by
    rw [offPath, offPath, List.filter_filter]
    simp
  rw [hcons, List.length_filter_lt_length_iff_exists]
  refine ⟨i, ?_, by simp⟩
  rw [offPath, List.mem_filter]
  exact ⟨mem_inUse.2 hu, decide_eq_true hi⟩

/-- How a reference to a chunk is shown that is met while the chunks on the path are
being shown. -/
def showing (h : Heap) (path : List Nat) (i : Nat) : Showing :=
  if _hi : i ∈ path then .cycle
  else
    match _hd : h.deref i with
    | .error _ => .dangling
    | .ok d => .data (d.render fun j => (h.showing (i :: path) j).text j)
termination_by (h.offPath path).length
decreasing_by exact length_offPath_cons _hi (isUsed_of_deref _hd)

theorem showing_of_mem (hi : i ∈ path) : h.showing path i = .cycle := by
  rw [showing, dif_pos hi]

theorem showing_of_error (hi : i ∉ path) (he : h.deref i = .error e) :
    h.showing path i = .dangling := by
  rw [showing, dif_neg hi]
  split
  · rfl
  · rename_i hd
    rw [he] at hd
    cases hd

theorem showing_of_data (hi : i ∉ path) (hd : h.deref i = .ok d) :
    h.showing path i = .data (d.render fun j => (h.showing (i :: path) j).text j) := by
  rw [showing, dif_neg hi]
  split
  · rename_i he
    rw [hd] at he
    cases he
  · rename_i hd'
    rw [hd] at hd'
    cases hd'
    rfl

/-- A reference is shown under a bound as it is without one, if the bound and the chunks on
the way are as many as the heap has chunks. A chunk that is entered is one more on the way,
so there is one left to the bound. -/
theorem renderRef_eq {depth : Nat} (hp : h.Distinct path)
    (hdepth : h.capacity ≤ depth + path.length) :
    h.renderRef depth path i = (h.showing path i).text i := by
  fun_induction showing h path i generalizing depth with
  | case1 path i hi =>
    rw [renderRef, if_pos (List.contains_iff_mem.2 hi), Showing.text]
  | case2 path i hi e he =>
    rw [renderRef, if_neg (by simpa using hi), he, Showing.text]
  | case3 path i hi d hd ih =>
    have hp' := hp.cons hi (isUsed_of_deref hd)
    have hle := hp'.length_le
    have hcapacity := length_inUse_le h
    rw [List.length_cons] at hle
    obtain ⟨depth, rfl⟩ : ∃ n, depth = n + 1 := ⟨depth - 1, by omega⟩
    have hdepth' : h.capacity ≤ depth + (i :: path).length := by
      rw [List.length_cons]
      omega
    rw [renderRef, if_neg (by simpa using hi), hd, Showing.text]
    exact Value.render_congr d fun j _ => ih j hp' hdepth'

theorem display_eq (h : Heap) (v : Value) :
    h.display v = v.render fun i => (h.showing [] i).text i :=
  Value.render_congr v fun _ _ => renderRef_eq (distinct_nil h) (Nat.le_refl _)

/-! ## The way to a reference -/

/-- A reference to a chunk that showing a value comes upon, and the chunks that are being
shown there, the last one first. -/
inductive Met (h : Heap) (v : Value) : List Nat → Nat → Prop
  | here {i : Nat} : v.Has (.ref i) → Met h v [] i
  | inside {path : List Nat} {i j : Nat} {d : Value} : Met h v path j → j ∉ path →
    h.deref j = .ok d → d.Has (.ref i) → Met h v (j :: path) i

/-- No chunk is being shown twice, and all that are being shown are in use. -/
theorem Met.distinct (hm : h.Met v path i) : h.Distinct path := by
  induction hm with
  | here _ => exact distinct_nil h
  | inside _ hj hd _ ih => exact ih.cons hj (isUsed_of_deref hd)

/-! ## Without cycles -/

/-- The data of the first chunk, which is in use, has a reference to the second in it. -/
def Refers (h : Heap) (i j : Nat) : Prop :=
  ∃ d, h.deref i = .ok d ∧ d.Has (.ref j)

/-- No chunk that can be reached from the value through references leads back to itself. -/
def Acyclic (h : Heap) (v : Value) : Prop :=
  ∀ i j, v.Has (.ref i) → ReflTransGen h.Refers i j → ¬TransGen h.Refers j j

theorem Acyclic.data (ha : h.Acyclic v) (hi : v.Has (.ref i)) (hd : h.deref i = .ok d) :
    h.Acyclic d :=
  fun _ k hj hjk => ha i k hi (.head ⟨d, hd, hj⟩ hjk)

/-- What is being shown already does not matter for a chunk from which none of it can be
reached. -/
theorem showing_eq (ha : ∀ j, ReflTransGen h.Refers i j → ¬TransGen h.Refers j j)
    (hp : ∀ j ∈ path, ¬ReflTransGen h.Refers i j) (hp' : ∀ j ∈ path', ¬ReflTransGen h.Refers i j) :
    h.showing path i = h.showing path' i := by
  fun_induction showing h path i generalizing path' with
  | case1 path i hi => exact absurd .refl (hp i hi)
  | case2 path i _ e he => rw [showing_of_error (fun hi => hp' i hi .refl) he]
  | case3 path i _ d hd ih =>
    rw [showing_of_data (fun hi => hp' i hi .refl) hd]
    refine congrArg Showing.data (Value.render_congr d fun j hj => ?_)
    have hij : h.Refers i j := ⟨d, hd, hj⟩
    have hback : ¬ReflTransGen h.Refers j i := fun hji => ha i .refl (.head' hij hji)
    have hoff {q : List Nat} (hq : ∀ k ∈ q, ¬ReflTransGen h.Refers i k) :
        ∀ k ∈ i :: q, ¬ReflTransGen h.Refers j k :=
      List.forall_mem_cons.2 ⟨hback, fun k hk hjk => hq k hk (.head hij hjk)⟩
    rw [ih j (fun k hjk => ha k (.head hij hjk)) (hoff hp) (hoff hp')]

/-- The second value is the first with the data of chunks in the place of references, and
with that of others in the place of the references in there. References that lead nowhere
stay. -/
inductive Expands (h : Heap) : Value → Value → Prop
  | replace (v : Value) (new : Nat → Value) :
    (∀ i d, v.Has (.ref i) → h.deref i = .ok d → Expands h d (new i)) →
    (∀ i, v.Has (.ref i) → h.isUsed i = false → new i = .ref i) →
    Expands h v (v.replaceRefs new)

/-- A value of which all references can be replaced leads into no cycle. -/
theorem Expands.acyclic (hw : h.Expands v w) : h.Acyclic v := by
  induction hw with
  | @replace v new _ _ ih =>
    -- what a chunk leads to leads into no cycle, so a cycle could only be there at once
    have hnext {i j k : Nat} (hi : v.Has (.ref i)) (hij : h.Refers i j)
        (hjk : ReflTransGen h.Refers j k) : ¬TransGen h.Refers k k := by
      obtain ⟨d, hd, hj⟩ := hij
      exact ih i d hi hd j k hj hjk
    intro i k hi hik hkk
    rcases hik.cases_head with rfl | ⟨j, hij, hjk⟩
    · obtain ⟨j, hij, hji⟩ := TransGen.head'_iff.1 hkk
      exact hnext hi hij hji hkk
    · exact hnext hi hij hjk hkk

/-- Where no cycle can be reached all references can be replaced. -/
theorem exists_expands (ha : h.Acyclic v)
    (hp : ∀ i j, v.Has (.ref i) → ReflTransGen h.Refers i j → j ∉ path) :
    ∃ w, h.Expands v w := by
  induction hn : (h.offPath path).length using Nat.strongRecOn generalizing path v with
  | ind n ih =>
    have hnew (i : Nat) : ∃ w, v.Has (.ref i) →
        (∀ d, h.deref i = .ok d → h.Expands d w) ∧ (h.isUsed i = false → w = .ref i) := by
      by_cases hi : v.Has (.ref i)
      · by_cases hu : h.isUsed i = true
        · obtain ⟨d, hd⟩ := exists_deref hu
          have hless := length_offPath_cons (hp i i hi .refl) hu
          have hoff (j k : Nat) (hj : d.Has (.ref j)) (hjk : ReflTransGen h.Refers j k) :
              k ∉ i :: path := by
            have hij : h.Refers i j := ⟨d, hd, hj⟩
            rintro (_ | ⟨_, hk⟩)
            · exact ha i i hi .refl (.head' hij hjk)
            · exact hp i k hi (.head hij hjk) hk
          obtain ⟨w, hw⟩ := ih _ (hn ▸ hless) (ha.data hi hd) hoff rfl
          refine ⟨w, fun _ => ⟨fun d' hd' => ?_, fun hu' => ?_⟩⟩
          · rw [hd] at hd'
            cases hd'
            exact hw
          · rw [hu] at hu'
            cases hu'
        · exact ⟨.ref i, fun _ => ⟨fun d hd => absurd (isUsed_of_deref hd) hu, fun _ => rfl⟩⟩
      · exact ⟨.void, fun hi' => absurd hi' hi⟩
    choose new hnew using hnew
    exact ⟨_, .replace v new (fun i d hi => (hnew i hi).1 d) fun i hi => (hnew i hi).2⟩

/-- A value and what is left of it without references show the same text. -/
theorem Expands.display (hw : h.Expands v w) : h.display w = h.display v := by
  have hcycle := hw.acyclic
  induction hw with
  | @replace v new hnew hdangling ih =>
    rw [display_eq, display_eq, Value.render_replaceRefs]
    refine Value.render_congr v fun i hi => ?_
    by_cases hu : h.isUsed i = true
    · obtain ⟨d, hd⟩ := exists_deref hu
      have ha := hcycle.data hi hd
      rw [← display_eq, ih i d hi hd ha, display_eq, showing_of_data (by simp) hd, Showing.text]
      refine Value.render_congr d fun j hj => ?_
      have hback (k : Nat) (hk : k ∈ [i]) : ¬ReflTransGen h.Refers j k := by
        rw [List.mem_singleton.1 hk]
        exact fun hji => hcycle i i hi .refl (.head' ⟨d, hd, hj⟩ hji)
      rw [showing_eq (fun k => ha j k hj) (by simp) hback]
    · rw [hdangling i hi (Bool.eq_false_iff.2 hu), Value.render]

/-- Showing a value ends on every heap. Each reference that it comes upon lies inside
different chunks in use, so no deeper than there are such, and is shown as a cycle exactly
if its chunk is one of them; otherwise by the data of its chunk, or as dangling if that is
not in use. The references of a value can all be replaced by data exactly if it leads into
no cycle, and then the text is that of the value without them. -/
theorem display_exact (h : Heap) (v : Value) :
    h.display v = v.render (fun i => (h.showing [] i).text i) ∧
    (∀ path i, h.Met v path i →
      path.Nodup ∧ path.length ≤ h.inUse.length ∧
      h.renderRef (h.capacity - path.length) path i = (h.showing path i).text i ∧
      (h.showing path i = .cycle ↔ i ∈ path) ∧
      (h.showing path i = .dangling ↔ i ∉ path ∧ h.isUsed i = false) ∧
      ∀ text, h.showing path i = .data text ↔ i ∉ path ∧ ∃ d, h.deref i = .ok d ∧
        text = d.render fun j => (h.showing (i :: path) j).text j) ∧
    ((∃ w, h.Expands v w) ↔ h.Acyclic v) ∧
    ∀ w, h.Expands v w → h.display w = h.display v := by
  refine ⟨display_eq h v, fun path i hm => ?_, ⟨?_, fun ha => ?_⟩,
    fun w => Expands.display⟩
  · have hp := hm.distinct
    have hrender : h.renderRef (h.capacity - path.length) path i = (h.showing path i).text i :=
      renderRef_eq hp (by omega)
    refine ⟨hp.nodup, hp.length_le, hrender, ?_⟩
    by_cases hi : i ∈ path
    · simp [showing_of_mem, hi]
    · cases hd : h.deref i with
      | error e => simp [showing_of_error hi hd, hi, (deref_eq_error_iff.1 hd).1]
      | ok d => simp [showing_of_data hi hd, hi, isUsed_of_deref hd, eq_comm]
  · rintro ⟨w, hw⟩
    exact hw.acyclic
  · exact exists_expands ha fun _ _ _ _ => List.not_mem_nil

/-- A heap on which chunk 0 refers to itself and twice to chunk 1, and chunk 2 is free. -/
def entwined : Heap where
  chunks := #[⟨.array .var [.ref 0, .ref 1, .ref 1], true, false⟩, ⟨.str "data", true, false⟩,
    ⟨.void, false, false⟩]
  freeList := [2]

/-- In what `[#0, #1, #2]` shows, the reference to chunk 0 inside chunk 0 is a cycle. The two
references of `[#1, #1]` are both replaced by the data of chunk 1. -/
theorem display_exact_entwined :
    entwined.display (.array .var [.ref 0, .ref 1, .ref 2]) =
      "[[<cycle #0>, data, data], data, <dangling #2>]" ∧
    (entwined.Met (.array .var [.ref 0, .ref 1, .ref 2]) [0] 0 ∧
      entwined.showing [0] 0 = .cycle ∧ entwined.showing [] 0 ≠ .cycle) ∧
    entwined.Expands (.array .var [.ref 1, .ref 1]) (.array .var [.str "data", .str "data"]) ∧
    entwined.display (.array .var [.str "data", .str "data"]) =
      entwined.display (.array .var [.ref 1, .ref 1]) := by
  have hhere : entwined.Met (.array .var [.ref 0, .ref 1, .ref 2]) [] 0 :=
    .here (.part List.mem_cons_self (.self _))
  have hinside : entwined.Met (.array .var [.ref 0, .ref 1, .ref 2]) [0] 0 :=
    .inside hhere List.not_mem_nil rfl (.part List.mem_cons_self (.self _))
  have hnone {i : Nat} (hi : (Value.str "data").Has (.ref i)) : False := by
    rcases Value.has_iff.1 hi with h | ⟨w, hw, -⟩
    · cases h
    · exact List.not_mem_nil hw
  have hdata : entwined.Expands (.str "data") (.str "data") :=
    .replace (.str "data") .ref (fun _ _ hi => (hnone hi).elim) fun _ hi => (hnone hi).elim
  have hshared : entwined.Expands (.array .var [.ref 1, .ref 1])
      (.array .var [.str "data", .str "data"]) := by
    have hone {i : Nat} (hi : (Value.array .var [.ref 1, .ref 1]).Has (.ref i)) : i = 1 := by
      rcases Value.has_iff.1 hi with h | ⟨w, hw, hx⟩
      · cases h
      · have hw : w = .ref 1 := by simpa [Value.parts] using hw
        rcases Value.has_iff.1 (hw ▸ hx) with h | ⟨_, hw, -⟩
        · exact Value.ref.inj h
        · exact absurd hw List.not_mem_nil
    refine .replace (.array .var [.ref 1, .ref 1]) (fun _ => .str "data") ?_ ?_
    · intro i d hi hd
      obtain rfl := hone hi
      cases hd
      exact hdata
    · intro i hi hu
      obtain rfl := hone hi
      exact absurd hu (by decide)
  obtain ⟨-, hmet, -⟩ := display_exact entwined (.array .var [.ref 0, .ref 1, .ref 2])
  obtain ⟨-, -, -, hdisplay⟩ := display_exact entwined (.array .var [.ref 1, .ref 1])
  refine ⟨by cbv, ⟨hinside, (hmet _ _ hinside).2.2.2.1.2 List.mem_cons_self, ?_⟩, hshared,
    hdisplay _ hshared⟩
  exact fun hcycle => List.not_mem_nil ((hmet _ _ hhere).2.2.2.1.1 hcycle)

end Heap

end HeapScript
