import HeapScript.Report.Span
import Mathlib.Data.List.TakeWhile

/-!
# The spans of lines

* `IsLine` says what the line with a number is: the characters from a line break, or the
  start, to the next one, or the end. The number counts the line breaks before it.
* `exists_isLine`: there is such a line for each number up to the number of lines, and
  `exists_isLine_at`, for each place the line that the place is on.
* `lineSpan_eq`: the span of a line is the range of its bytes, without the carriage
  returns at its end.
* `lineSpan_covers`: it covers every text on the line that does not end in such a one.
-/

namespace HeapScript.Report

/-- The source has a line with the number. -/
def HasLine (source : String) (n : Nat) : Prop :=
  1 ≤ n ∧ n ≤ source.toList.count '\n' + 1

/-- The line with the number consists of the characters `text`, and stands behind the
characters `before`. -/
structure IsLine (cs : List Char) (n : Nat) (before text after : List Char) : Prop where
  split : cs = before ++ (text ++ after)
  starts : ∀ c ∈ before.getLast?, c = '\n'
  whole : '\n' ∉ text
  stops : ∀ c ∈ after.head?, c = '\n'
  number : n = before.count '\n' + 1

variable {cs before text after : List Char} {n : Nat}

/-! ## Bytes -/

theorem byteLength_append (cs ds : List Char) :
    byteLength (cs ++ ds) = byteLength cs + byteLength ds := by
  induction cs with
  | nil => exact (Nat.zero_add _).symm
  | cons c cs ih =>
    show c.utf8Size + byteLength (cs ++ ds) = c.utf8Size + byteLength cs + byteLength ds
    rw [ih, Nat.add_assoc]

theorem byteLength_newline (cs : List Char) : byteLength ('\n' :: cs) = byteLength cs + 1 :=
  Nat.add_comm 1 _

theorem byteLength_le_of_prefix {cs ds : List Char} (h : cs <+: ds) :
    byteLength cs ≤ byteLength ds := by
  obtain ⟨r, rfl⟩ := h
  rw [byteLength_append]
  exact Nat.le_add_right _ _

/-! ## Carriage returns -/

/-- What is stripped are carriage returns, and none is left at the end. -/
theorem stripReturns_append (cs : List Char) :
    ∃ k, cs = stripReturns cs ++ List.replicate k '\r' ∧
      (stripReturns cs).getLast? ≠ some '\r' := by
  have hreturns : ∀ c ∈ cs.reverse.takeWhile (· == '\r'), c = '\r' := fun c hc => by
    simpa using List.mem_takeWhile_imp hc
  refine ⟨(cs.reverse.takeWhile (· == '\r')).length, ?_, fun hlast => ?_⟩
  · have hsplit := List.takeWhile_append_dropWhile (p := (· == '\r')) (l := cs.reverse)
    rw [List.eq_replicate_of_mem hreturns] at hsplit
    rw [stripReturns, ← List.reverse_replicate, ← List.reverse_append, hsplit,
      List.reverse_reverse]
  · have hstop := List.head?_dropWhile_not (· == '\r') cs.reverse
    rw [stripReturns, List.getLast?_reverse] at hlast
    rw [hlast] at hstop
    cases hstop

/-- What does not end in a carriage return is kept. -/
theorem stripReturns_keeps (hlast : before.getLast? ≠ some '\r') :
    before <+: stripReturns (before ++ after) := by
  have hkeep : before.reverse.dropWhile (· == '\r') = before.reverse := by
    cases hr : before.reverse with
    | nil => rfl
    | cons c r =>
      have hne : c ≠ '\r' := fun hc => hlast (by rw [← List.head?_reverse, hr, hc]; rfl)
      exact List.dropWhile_cons_of_neg (by simpa using hne)
  rw [stripReturns, List.reverse_append, List.dropWhile_append]
  split
  · exact ⟨[], by rw [hkeep, List.reverse_reverse, List.append_nil]⟩
  · rw [List.reverse_append, List.reverse_reverse]
    exact List.prefix_append _ _

/-! ## Lines -/

theorem exists_line_end (cs : List Char) :
    ∃ line rest, cs = line ++ rest ∧ '\n' ∉ line ∧ ∀ c ∈ rest.head?, c = '\n' := by
  refine ⟨cs.takeWhile (· != '\n'), cs.dropWhile (· != '\n'),
    List.takeWhile_append_dropWhile.symm, fun hmem => ?_, fun c hc => ?_⟩
  · simpa using List.mem_takeWhile_imp hmem
  · have hstop := List.head?_dropWhile_not (· != '\n') cs
    rw [hc] at hstop
    simpa using hstop

theorem exists_line_start (cs : List Char) :
    ∃ rest line, cs = rest ++ line ∧ '\n' ∉ line ∧ ∀ c ∈ rest.getLast?, c = '\n' := by
  obtain ⟨line, rest, hcs, hline, hrest⟩ := exists_line_end cs.reverse
  refine ⟨rest.reverse, line.reverse, ?_, by simpa using hline, by simpa using hrest⟩
  rw [← List.reverse_append, ← hcs, List.reverse_reverse]

/-- The line around a text without a line break. -/
theorem exists_isLine_around {t : List Char} (ht : '\n' ∉ t) (front rest : List Char) :
    ∃ before start stop after, front = before ++ start ∧
      IsLine (front ++ (t ++ rest)) (front.count '\n' + 1) before (start ++ (t ++ stop)) after := by
  obtain ⟨before, start, rfl, hstart, hbefore⟩ := exists_line_start front
  obtain ⟨stop, after, rfl, hstop, hafter⟩ := exists_line_end rest
  have hwhole : '\n' ∉ start ++ (t ++ stop) := by simp [hstart, ht, hstop]
  refine ⟨before, start, stop, after, rfl, by simp, hbefore, hwhole, hafter, ?_⟩
  rw [List.count_append, List.count_eq_zero.2 hstart, Nat.add_zero]

theorem exists_split_count {c : Char} {k : Nat} (h : k ≤ cs.count c) :
    ∃ front rest, cs = front ++ rest ∧ front.count c = k := by
  induction cs generalizing k with
  | nil => exact ⟨[], [], rfl, (Nat.le_zero.1 h).symm⟩
  | cons d r ih =>
    cases k with
    | zero => exact ⟨[], d :: r, rfl, rfl⟩
    | succ k =>
      rw [List.count_cons] at h
      by_cases hd : d = c
      · obtain ⟨front, rest, rfl, hcount⟩ := ih (k := k) (by simp [hd] at h; exact h)
        exact ⟨d :: front, rest, rfl, by rw [hd, List.count_cons_self, hcount]⟩
      · obtain ⟨front, rest, rfl, hcount⟩ := ih (k := k + 1) (by simpa [hd] using h)
        exact ⟨d :: front, rest, rfl, by rw [List.count_cons_of_ne hd, hcount]⟩

/-- There is a line with each number up to the number of lines. -/
theorem exists_isLine {source : String} (h : HasLine source n) :
    ∃ before text after, IsLine source.toList n before text after := by
  obtain ⟨front, rest, hcs, hcount⟩ := exists_split_count (Nat.sub_le_of_le_add h.2)
  obtain ⟨before, start, stop, after, -, hline⟩ :=
    exists_isLine_around List.not_mem_nil front rest
  rw [hcount, Nat.sub_add_cancel h.1, List.nil_append, ← hcs] at hline
  exact ⟨before, _, after, hline⟩

/-! ## Spans -/

theorem splitLines_of_not_mem (h : '\n' ∉ text) : splitLines text = [text] := by
  induction text with
  | nil => rfl
  | cons c r ih =>
    obtain ⟨hc, hr⟩ : '\n' ≠ c ∧ '\n' ∉ r := by simpa using h
    rw [splitLines, if_neg hc.symm, ih hr]

theorem splitLines_append_newline (h : '\n' ∉ text) (rest : List Char) :
    splitLines (text ++ '\n' :: rest) = text :: splitLines rest := by
  induction text with
  | nil => rw [List.nil_append, splitLines, if_pos rfl]
  | cons c r ih =>
    obtain ⟨hc, hr⟩ : '\n' ≠ c ∧ '\n' ∉ r := by simpa using h
    rw [List.cons_append, splitLines, if_neg hc.symm, ih hr]

/-- The span that is found for a line, by induction on the lines before it. -/
theorem spanFrom?_isLine {k : Nat} (h : IsLine cs (k + 1) before text after) (start : Nat) :
    spanFrom? start (splitLines cs) k = some ⟨start + byteLength before,
      start + byteLength before + byteLength (stripReturns text)⟩ := by
  obtain ⟨rfl, hstarts, hwhole, hstops, hnumber⟩ := h
  have hcount : before.count '\n' = k := (Nat.succ.inj hnumber).symm
  induction k generalizing before start with
  | zero =>
    have hbefore : before = [] := by
      rw [← List.getLast?_eq_none_iff, Option.eq_none_iff_forall_not_mem]
      intro c hc
      rw [List.count_eq_zero] at hcount
      exact hcount (hstarts c hc ▸ List.mem_of_getLast? hc)
    subst hbefore
    cases after with
    | nil => rw [List.nil_append, List.append_nil, splitLines_of_not_mem hwhole]; rfl
    | cons c r =>
      cases hstops c rfl
      rw [List.nil_append, splitLines_append_newline hwhole]
      rfl
  | succ k ih =>
    have hmem : '\n' ∈ before := List.count_pos_iff.1 (by omega)
    obtain ⟨first, before, rfl, hfirst⟩ := List.eq_append_cons_of_mem hmem
    rw [List.count_append, List.count_eq_zero.2 hfirst, List.count_cons_self] at hcount
    have hstarts' : ∀ c ∈ before.getLast?, c = '\n' := fun c hc => hstarts c (by
      rw [List.getLast?_append, List.getLast?_cons, Option.mem_def.1 hc]
      rfl)
    have hrest := ih (start + byteLength first + 1) hstarts' (by omega) (by omega)
    rw [List.append_assoc, List.cons_append, splitLines_append_newline hfirst, spanFrom?, hrest,
      byteLength_append, byteLength_newline]
    simp only [Option.some.injEq, Span.mk.injEq]
    omega

/-- The span of a line is the range of its bytes, without the carriage returns at its
end. -/
theorem lineSpan_eq {source : String} (h : IsLine source.toList n before text after) :
    lineSpan source n =
      ⟨byteLength before, byteLength before + byteLength (stripReturns text)⟩ := by
  obtain rfl : n = before.count '\n' + 1 := h.number
  rw [lineSpan, spanFrom?_isLine h, Nat.zero_add]
  rfl

/-- A text on one line that does not end in a carriage return lies in the span of its
line. -/
theorem lineSpan_covers {source : String} {front t rest : List Char}
    (hsource : source.toList = front ++ (t ++ rest)) (ht : '\n' ∉ t)
    (hlast : ∃ c ∈ t.getLast?, c ≠ '\r') :
    (lineSpan source (front.count '\n' + 1)).start ≤ byteLength front ∧
      byteLength front + byteLength t ≤ (lineSpan source (front.count '\n' + 1)).stop := by
  obtain ⟨before, start, stop, after, rfl, hline⟩ := exists_isLine_around ht front rest
  obtain ⟨c, hc, hne⟩ := hlast
  rw [← hsource] at hline
  rw [lineSpan_eq hline, byteLength_append]
  have hkeeps : start ++ t <+: stripReturns (start ++ t ++ stop) := by
    refine stripReturns_keeps ?_
    rw [List.getLast?_append, Option.mem_def.1 hc]
    simpa using hne
  have hle := byteLength_le_of_prefix hkeeps
  rw [byteLength_append, List.append_assoc] at hle
  exact ⟨Nat.le_add_right _ _, by show _ ≤ byteLength before + _; omega⟩

end HeapScript.Report
