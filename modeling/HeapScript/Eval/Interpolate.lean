import HeapScript.Decimal.Numeral
import HeapScript.Fault

/-!
# Filling placeholders

A string that is called replaces its placeholders by the texts of the arguments.
A placeholder is an at sign and as many digits as follow it; an at sign without
digits stands for itself. Text that was put in is not looked at again.

* `interpolate` is the filled text, or names the first placeholder that has no
  argument.
-/

namespace HeapScript

/-- A template with its placeholders filled. -/
def interpolate (shown : List String) (template : List Char) : Except Fault (List Char) :=
  match template with
  | [] => .ok []
  | c :: r =>
    if c = '@' then
      let digits := r.takeWhile Char.isDigit
      if digits.isEmpty then (interpolate shown r).map ('@' :: ·)
      else
        match shown[Decimal.natOfDigits digits]? with
        | some text =>
          (interpolate shown (r.dropWhile Char.isDigit)).map (text.toList ++ ·)
        | none => .error (.missingArgument (String.ofList digits) shown.length)
    else (interpolate shown r).map (c :: ·)
termination_by template.length
decreasing_by
  · simp
  · simpa [Nat.lt_succ_iff] using (List.dropWhile_sublist Char.isDigit).length_le
  · simp

end HeapScript
