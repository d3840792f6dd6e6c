import HeapScript.Eval.Call
import HeapScript.Eval.Expression
import HeapScript.Proofs.Machine.Slot

/-!
# What evaluation makes of values

* `arrayOf_eq_ok`: array literals.
* `member_eq_ok`: members, and `deref_of_origin` the chunk that a method is bound to.
* `checkReturn_eq_ok`: the results of functions.
-/

namespace HeapScript

variable {m : Machine} {v w object data : Value}

/-- The array that a literal makes of its elements is empty, or has the type of the first
one as its tag, and its tag accepts all of them. -/
theorem arrayOf_eq_ok {items : List Value} (h : arrayOf items = .ok v) :
    items = [] ∧ v = .array .var [] ∨ ∃ first rest, items = first :: rest ∧
      v = .array first.type items ∧ ∀ x ∈ items, first.type.accepts x.type := by
  rw [arrayOf.eq_def] at h
  split at h
  · cases h
    exact .inl ⟨rfl, rfl⟩
  · rename_i first rest
    split at h
    · cases h
    · rename_i hfind
      cases h
      refine .inr ⟨first, rest, rfl, rfl, fun x hx => ?_⟩
      rcases List.mem_cons.1 hx with rfl | hx
      · exact Ty.accepts_self _
      · simpa using List.find?_eq_none.1 hfind x hx

/-- An array literal is an array of its elements. -/
theorem eq_array_of_arrayOf {items : List Value} (h : arrayOf items = .ok v) :
    ∃ tag, v = .array tag items := by
  rcases arrayOf_eq_ok h with ⟨rfl, rfl⟩ | ⟨first, rest, -, rfl, -⟩
  · exact ⟨_, rfl⟩
  · exact ⟨_, rfl⟩

namespace Machine

/-- A member is what its slot holds; a function gets a receiver and a name. -/
theorem member_eq_ok {origin : Option Nat} {name : String}
    (ho : m.resolveWithOrigin object = .ok (data, origin))
    (h : m.member object (.ident name) = .ok v) :
    ∃ part ty holdsRef, data.enter (.member name) = .ok (part, ty, holdsRef) ∧
      (v = part ∨ ∃ f, part = .function f ∧
        v = .function { f with receiver := origin.or f.receiver, boundName := some name }) := by
  obtain ⟨⟨data', origin'⟩, ho', h⟩ := bind_eq_ok.1 h
  rw [ho] at ho'
  cases ho'
  obtain ⟨⟨part, ty, holdsRef⟩, he, h⟩ := bind_eq_ok.1 h
  refine ⟨part, ty, holdsRef, he, ?_⟩
  cases part with
  | function f => exact .inr ⟨f, rfl, (pure_eq_ok.1 h).symm⟩
  | _ => exact .inl (pure_eq_ok.1 h).symm

theorem deref_of_origin {last : Nat} (h : m.resolveWithOrigin object = .ok (data, some last)) :
    m.heap.deref last = .ok data := by
  obtain ⟨w, -, h⟩ := bind_eq_ok.1 h
  cases w with
  | ref index =>
    obtain ⟨l, -, h⟩ := bind_eq_ok.1 h
    obtain ⟨x, hx, h⟩ := bind_eq_ok.1 h
    cases pure_eq_ok.1 h
    exact mapError_eq_ok.1 hx
  | _ => cases h

/-- The result of a function is what it returns, as it is if that is a reference and else
held to the declared type. -/
theorem checkReturn_eq_ok {d : FunctionDef} {name : String}
    (h : m.checkReturn d name v = .ok w) : w = v ∨ m.heap.conform d.returnType v = .ok w := by
  rw [checkReturn] at h
  split at h
  · exact .inl (expectReference_eq_ok h).1
  · split at h
    · exact .inr h
    · cases h

end Machine

end HeapScript
