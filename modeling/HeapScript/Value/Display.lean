import HeapScript.Heap

/-!
# How values are shown

Printing shows references by the data they lead to. A chunk that is already being
shown on the way from the root is shown as a cycle, one that cannot be reached as
dangling.

* `Value.render` writes a value, given how its references are written.
* `Heap.renderRef` writes a reference inside the chunks on the way to it. Each of
  them is a different chunk, so the depth it starts with is never used up.
* `Heap.display` is the text of a value.
-/

namespace HeapScript

namespace Value

mutual

/-- The text of a value, with references written by `ref`. -/
def render (showRef : Nat → String) : Value → String
  | num n => Decimal.shown n
  | str s => s
  | bool b => if b then "true" else "false"
  | array _ items => "[" ++ ", ".intercalate (renderAll showRef items) ++ "]"
  | object className layout members =>
    match renderMembers showRef layout members with
    | [] => className ++ (if members.isEmpty then " \x7b\x7d" else " \x7b \x7d")
    | shown => className ++ " \x7b " ++ ", ".intercalate shown ++ " \x7d"
  | function f =>
    match f.boundName with
    | some name => "<func " ++ name ++ ">"
    | none => "<func>"
  | classDef c => "<class " ++ c.name ++ ">"
  | ref index => showRef index
  | ident name => name
  | void => "void"
  | unknown => "unknown"

/-- The texts of several values. -/
def renderAll (showRef : Nat → String) : List Value → List String
  | [] => []
  | v :: vs => render showRef v :: renderAll showRef vs

/-- The members of an object with their names. -/
def renderMembers (showRef : Nat → String) : List Param → List Value → List String
  | p :: ps, v :: vs => (p.name ++ ": " ++ render showRef v) :: renderMembers showRef ps vs
  | _, _ => []

end

end Value

namespace Heap

/-- The text of a reference that is met while the chunks in `visiting` are being
shown, at most so many more references deep. -/
def renderRef (h : Heap) : Nat → List Nat → Nat → String
  | depth, visiting, index =>
    if visiting.contains index then "<cycle " ++ Value.showIndex index ++ ">"
    else
      match h.deref index with
      | .error _ => "<dangling " ++ Value.showIndex index ++ ">"
      | .ok data =>
        match depth with
        | 0 => "<cycle " ++ Value.showIndex index ++ ">"
        | d + 1 => data.render (renderRef h d (index :: visiting))

/-- The text of a value. -/
def display (h : Heap) (v : Value) : String :=
  v.render (h.renderRef h.capacity [])

end Heap

end HeapScript
