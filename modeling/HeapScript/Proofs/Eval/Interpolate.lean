import HeapScript.Eval.Interpolate
import HeapScript.Proofs.Fault.Outcome
import HeapScript.Proofs.Token.First
import HeapScript.Proofs.Token.Pattern

/-!
# Placeholders in templates

What is filled in where, read off the text of a template alone.

* `Template.Group` is a placeholder with what stands before and behind it, and
  `Template.number` the number that its digits denote.
* `Template.Filled` is the text with its placeholders replaced, `Template.Missing` the
  first placeholder without an argument.
* `interpolate_exact`: filling yields the one or fails with the other, and texts can be
  filled apart where no placeholder reaches across the seam.
-/

namespace HeapScript

open Lexer (Digit Digits isDigit_iff)

namespace Template

/-- The number that digits denote, the first one standing for the highest power of ten. -/
def number (ds : List Char) : Nat :=
  Nat.ofDigits 10 (ds.reverse.map fun c => c.toNat - '0'.toNat)

/-- An at sign with digits behind it, as many as follow. The text is split before the
sign and behind the digits. -/
structure Group (t before ds after : List Char) : Prop where
  text : t = before ++ '@' :: (ds ++ after)
  digits : Digits ds
  maximal : ∀ c ∈ after.head?, ¬Digit c

/-- No group starts at the front. -/
def Plain (t : List Char) : Prop :=
  ∀ ds after, ¬Group t [] ds after

/-- The second text is the first one with each group replaced by the argument of its
number. -/
inductive Filled (shown : List String) : List Char → List Char → Prop
  | nil : Filled shown [] []
  | keep {c : Char} {r out : List Char} : Plain (c :: r) → Filled shown r out →
    Filled shown (c :: r) (c :: out)
  | fill {t ds after out : List Char} {text : String} : Group t [] ds after →
    shown[number ds]? = some text → Filled shown after out →
    Filled shown t (text.toList ++ out)

/-- The digits of a group that stands behind a text. -/
def GroupAt (t before ds : List Char) : Prop :=
  ∃ after, Group t before ds after

/-- The digits of the first group whose number is none of an argument. -/
def Missing (shown : List String) (t : List Char) : List Char → Prop :=
  First (GroupAt t) fun ds => shown.length ≤ number ds

/-- The text ends in an at sign, with or without digits behind it. -/
def EndsOpen (t : List Char) : Prop :=
  ∃ before ds, t = before ++ '@' :: ds ∧ ∀ c ∈ ds, Digit c

variable {shown : List String} {c : Char} {t t₁ t₂ r before ds after out : List Char}

theorem number_eq (ds : List Char) : Decimal.natOfDigits ds = number ds := by
  induction ds using List.reverseRecOn with
  | nil => rfl
  | append_singleton ds c ih =>
    rw [Decimal.natOfDigits, List.foldl_concat, ← Decimal.natOfDigits, ih]
    simp [number, Nat.ofDigits_cons, add_comm]

/-! ## Where the groups of a text are -/

theorem not_digit_at : ¬Digit '@' := by decide

theorem Group.takeWhile (h : Group t before ds after) :
    (ds ++ after).takeWhile Char.isDigit = ds := by
  rw [List.takeWhile_append_of_pos h.digits.isDigit]
  obtain _ | ⟨c, after⟩ := after
  · simp
  · have hc : ¬c.isDigit := isDigit_iff.not.2 (h.maximal c rfl)
    simp [hc]

theorem Group.dropWhile (h : Group t before ds after) :
    (ds ++ after).dropWhile Char.isDigit = after := by
  have hsplit := List.takeWhile_append_dropWhile (p := Char.isDigit) (l := ds ++ after)
  rw [h.takeWhile] at hsplit
  exact List.append_cancel_left hsplit

/-- The digits behind an at sign make a group. -/
theorem group_takeWhile (h : r.takeWhile Char.isDigit ≠ []) :
    Group ('@' :: r) [] (r.takeWhile Char.isDigit) (r.dropWhile Char.isDigit) where
  text := by simp
  digits := ⟨h, fun c hc => isDigit_iff.1 (List.mem_takeWhile_imp hc)⟩
  maximal c hc hdigit := by
    have hnot := List.head?_dropWhile_not Char.isDigit r
    rw [Option.mem_def.1 hc] at hnot
    simp [isDigit_iff.2 hdigit] at hnot

theorem plain_iff : Plain (c :: r) ↔ ¬(c = '@' ∧ ∃ d ∈ r.head?, Digit d) := by
  constructor
  · rintro h ⟨rfl, d, hd, hdigit⟩
    obtain ⟨u, rfl⟩ := List.head?_eq_some_iff.1 hd
    exact h _ _ (group_takeWhile (Lexer.digits_takeWhile hdigit).1)
  · rintro h ds after hg
    obtain ⟨rfl, rfl⟩ := List.cons.inj hg.text
    obtain _ | ⟨d, ds⟩ := ds
    · exact hg.digits.1 rfl
    · exact h ⟨rfl, d, rfl, hg.digits.2 d List.mem_cons_self⟩

theorem Plain.takeWhile (h : Plain ('@' :: r)) : r.takeWhile Char.isDigit = [] :=
  not_not.1 fun hne => h _ _ (group_takeWhile hne)

/-- A text is empty, or starts with a character of its own or with a group. -/
theorem induction_groups {P : List Char → Prop} (nil : P [])
    (keep : ∀ c r, Plain (c :: r) → P r → P (c :: r))
    (fill : ∀ t ds after, Group t [] ds after → P after → P t) (t : List Char) : P t := by
  induction hn : t.length using Nat.strong_induction_on generalizing t with
  | _ n ih =>
    subst hn
    by_cases hplain : Plain t
    · cases t with
      | nil => exact nil
      | cons c r => exact keep c r hplain (ih _ (Nat.lt_succ_self _) r rfl)
    · obtain ⟨ds, after, h⟩ : ∃ ds after, Group t [] ds after := by
        simpa [Plain] using hplain
      have hlength : after.length < t.length := by
        simp only [h.text, List.nil_append, List.length_cons, List.length_append]
        omega
      exact fill t ds after h (ih _ hlength after rfl)

/-- Behind a character that starts no group the groups are those of the rest. -/
theorem Plain.groupAt_iff (h : Plain (c :: r)) :
    GroupAt (c :: r) before ds ↔ ∃ u, before = [c] ++ u ∧ GroupAt r u ds := by
  constructor
  · rintro ⟨after, hg⟩
    obtain _ | ⟨d, u⟩ := before
    · exact absurd hg (h _ _)
    · obtain ⟨rfl, htext⟩ := List.cons.inj hg.text
      exact ⟨u, rfl, after, { hg with text := htext }⟩
  · rintro ⟨u, rfl, after, hg⟩
    exact ⟨after, { hg with text := congrArg (c :: ·) hg.text }⟩

/-- A group at the front is the only one there, and the others are those of the text
behind it: no group starts among the digits of another. -/
theorem Group.groupAt_iff (h : Group t [] ds after) {ds' : List Char} :
    GroupAt t before ds' ↔ before = [] ∧ ds' = ds ∨
      ∃ u, before = '@' :: ds ++ u ∧ GroupAt after u ds' := by
  constructor
  · rintro ⟨after', hg⟩
    have htext : '@' :: (ds ++ after) = before ++ '@' :: (ds' ++ after') :=
      h.text.symm.trans hg.text
    obtain _ | ⟨d, before⟩ := before
    · obtain ⟨-, hr⟩ := List.cons.inj htext
      exact .inl ⟨rfl, by rw [← h.takeWhile, hr, hg.takeWhile]⟩
    · obtain ⟨rfl, hr⟩ := List.cons.inj htext
      right
      rcases List.append_eq_append_iff.1 hr with ⟨u, rfl, hafter⟩ | ⟨u, hds, hu⟩
      · exact ⟨u, rfl, after', { hg with text := hafter }⟩
      · obtain _ | ⟨d, u⟩ := u
        · rw [List.append_nil] at hds
          exact ⟨[], by simp [hds], after', { hg with text := hu.symm }⟩
        · obtain ⟨rfl, -⟩ := List.cons.inj hu
          exact absurd (h.digits.2 '@' (by simp [hds])) not_digit_at
  · rintro (⟨rfl, rfl⟩ | ⟨u, rfl, after', hg⟩)
    · exact ⟨after, h⟩
    · exact ⟨after', { hg with text := by rw [h.text, hg.text]; simp }⟩

/-! ## The first group without an argument -/

theorem not_missing_nil : ¬Missing shown [] ds :=
  not_first_of_not_at fun _ _ ⟨_, h⟩ => by simpa using h.text

theorem Plain.missing_iff (h : Plain (c :: r)) :
    Missing shown (c :: r) ds ↔ Missing shown r ds :=
  first_iff_of_behind fun _ _ => h.groupAt_iff

theorem Group.missing_iff (h : Group t [] ds after) {ds' : List Char} :
    Missing shown t ds' ↔ shown.length ≤ number ds ∧ ds' = ds ∨
      ¬shown.length ≤ number ds ∧ Missing shown after ds' :=
  first_iff_of_front (List.cons_ne_nil '@' ds) fun _ _ => h.groupAt_iff

end Template

open Template

variable {shown : List String} {c : Char} {t t₁ t₂ r before ds after out : List Char}

/-! ## Filling, step by step -/

theorem interpolate_keep (h : Plain (c :: r)) :
    interpolate shown (c :: r) = (interpolate shown r).map (c :: ·) := by
  rw [interpolate]
  split
  · rename_i hc
    subst hc
    simp [h.takeWhile]
  · rfl

theorem interpolate_group {text : String} (h : Group t [] ds after)
    (htext : shown[number ds]? = some text) :
    interpolate shown t = (interpolate shown after).map (text.toList ++ ·) := by
  rw [h.text, List.nil_append, interpolate, if_pos rfl]
  dsimp only
  rw [h.takeWhile, h.dropWhile, number_eq, if_neg (by simp [h.digits.1])]
  simp only [htext]

theorem interpolate_missing (h : Group t [] ds after) (hnone : shown[number ds]? = none) :
    interpolate shown t = .error (.missingArgument (String.ofList ds) shown.length) := by
  rw [h.text, List.nil_append, interpolate, if_pos rfl]
  dsimp only
  rw [h.takeWhile, number_eq, if_neg (by simp [h.digits.1])]
  simp only [hnone]

theorem filled_of_interpolate : interpolate shown t = .ok out → Filled shown t out := by
  induction t using induction_groups generalizing out with
  | nil =>
    intro h
    rw [interpolate] at h
    cases h
    exact .nil
  | keep c r hplain ih =>
    intro h
    rw [interpolate_keep hplain] at h
    obtain ⟨out, hout, rfl⟩ := map_eq_ok.1 h
    exact .keep hplain (ih hout)
  | fill t ds after hg ih =>
    intro h
    cases htext : shown[number ds]? with
    | none =>
      rw [interpolate_missing hg htext] at h
      cases h
    | some text =>
      rw [interpolate_group hg htext] at h
      obtain ⟨out, hout, rfl⟩ := map_eq_ok.1 h
      exact .fill hg htext (ih hout)

theorem interpolate_of_filled (h : Filled shown t out) : interpolate shown t = .ok out := by
  induction h with
  | nil => rw [interpolate]
  | keep hplain _ ih =>
    rw [interpolate_keep hplain, map_eq_ok]
    exact ⟨_, ih, rfl⟩
  | fill hg htext _ ih =>
    rw [interpolate_group hg htext]
    exact map_eq_ok.2 ⟨_, ih, rfl⟩

theorem interpolate_eq_error_iff {fault : Fault} : interpolate shown t = .error fault ↔
    ∃ ds, Missing shown t ds ∧ fault = .missingArgument (String.ofList ds) shown.length := by
  induction t using induction_groups with
  | nil => simp [interpolate, not_missing_nil]
  | keep c r hplain ih =>
    simp only [interpolate_keep hplain, map_eq_error, ih, hplain.missing_iff]
  | fill t ds after hg ih =>
    simp only [hg.missing_iff]
    cases htext : shown[number ds]? with
    | none =>
      have hlarge := List.getElem?_eq_none_iff.1 htext
      simp [interpolate_missing hg htext, hlarge, eq_comm]
    | some text =>
      obtain ⟨hsmall, -⟩ := List.getElem?_eq_some_iff.1 htext
      simp [interpolate_group hg htext, Nat.not_le.2 hsmall, ih]

/-! ## Two texts one after the other -/

theorem Template.EndsOpen.append (h : EndsOpen r) (t : List Char) : EndsOpen (t ++ r) := by
  obtain ⟨before, ds, rfl, hds⟩ := h
  exact ⟨t ++ before, ds, by simp, hds⟩

/-- No group comes about at a seam, unless the first text is open and the second one
goes on with a digit. -/
theorem Template.Plain.append (h : Plain (c :: r))
    (hseam : ¬(EndsOpen (c :: r) ∧ ∃ d ∈ t₂.head?, Digit d)) : Plain (c :: (r ++ t₂)) := by
  refine plain_iff.2 fun ⟨hc, d, hd, hdigit⟩ => ?_
  obtain _ | ⟨e, r⟩ := r
  · exact hseam ⟨⟨[], [], by simp [hc], by simp⟩, d, hd, hdigit⟩
  · exact plain_iff.1 h ⟨hc, d, hd, hdigit⟩

theorem Template.Group.append (h : Group t before ds after)
    (hseam : ¬(EndsOpen t ∧ ∃ d ∈ t₂.head?, Digit d)) :
    Group (t ++ t₂) before ds (after ++ t₂) where
  text := by simp [h.text]
  digits := h.digits
  maximal c hc hdigit := by
    obtain _ | ⟨d, after⟩ := after
    · exact hseam ⟨⟨before, ds, by simpa using h.text, h.digits.2⟩, c, hc, hdigit⟩
    · exact h.maximal c hc hdigit

theorem interpolate_append (hseam : ¬(EndsOpen t₁ ∧ ∃ d ∈ t₂.head?, Digit d)) :
    interpolate shown (t₁ ++ t₂) = do
      let out₁ ← interpolate shown t₁
      let out₂ ← interpolate shown t₂
      return out₁ ++ out₂ := by
  induction t₁ using induction_groups with
  | nil =>
    rw [List.nil_append]
    cases interpolate shown t₂ <;> simp [interpolate, bind, Except.bind, pure, Except.pure]
  | keep c r hplain ih =>
    rw [List.cons_append, interpolate_keep (hplain.append hseam), interpolate_keep hplain,
      ih fun h => hseam ⟨h.1.append [c], h.2⟩]
    cases interpolate shown r with
    | error => rfl
    | ok => cases interpolate shown t₂ <;> rfl
  | fill t ds after hg ih =>
    have hrest := ih fun h => hseam ⟨hg.text ▸ (h.1.append ds).append ['@'], h.2⟩
    cases htext : shown[number ds]? with
    | none =>
      rw [interpolate_missing (hg.append hseam) htext, interpolate_missing hg htext]
      rfl
    | some text =>
      rw [interpolate_group (hg.append hseam) htext, interpolate_group hg htext, hrest]
      cases interpolate shown after with
      | error => rfl
      | ok out₁ =>
        cases interpolate shown t₂ with
        | error => rfl
        | ok out₂ => exact congrArg Except.ok (List.append_assoc _ _ _).symm

/-- Filling is one pass from left to right. It fails where a group has no argument and
names the first such group, else each group is replaced and all else kept; and it is
done text by text where the seam is in no group. -/
theorem interpolate_exact (shown : List String) (t : List Char) :
    ((∃ fault, interpolate shown t = .error fault) ↔
      ∃ before ds after, Group t before ds after ∧ shown.length ≤ number ds) ∧
    (∀ fault, interpolate shown t = .error fault ↔
      ∃ ds, Missing shown t ds ∧
        fault = .missingArgument (String.ofList ds) shown.length) ∧
    (∀ out, interpolate shown t = .ok out ↔ Filled shown t out) ∧
    ∀ t₂, ¬(EndsOpen t ∧ ∃ d ∈ t₂.head?, Digit d) →
      interpolate shown (t ++ t₂) = do
        let out₁ ← interpolate shown t
        let out₂ ← interpolate shown t₂
        return out₁ ++ out₂ := by
  refine ⟨?_, fun _ => interpolate_eq_error_iff,
    fun _ => ⟨filled_of_interpolate, interpolate_of_filled⟩, fun _ => interpolate_append⟩
  have hfirst : (∃ ds, Missing shown t ds) ↔
      ∃ before ds after, Group t before ds after ∧ shown.length ≤ number ds := by
    simp [Missing, exists_first_iff, GroupAt]
  rw [← hfirst]
  constructor
  · rintro ⟨fault, h⟩
    obtain ⟨ds, hds, -⟩ := interpolate_eq_error_iff.1 h
    exact ⟨ds, hds⟩
  · rintro ⟨ds, hds⟩
    exact ⟨_, interpolate_eq_error_iff.2 ⟨ds, hds, rfl⟩⟩

/-- An at sign before a group, a leading zero, an argument that looks like a group, an
open end before more text, and a number beyond any machine word. -/
theorem interpolate_exact_entangled :
    Filled ["@1", "b"] "@@0@01x@".toList "@@1bx@".toList ∧
    interpolate ["@1", "b"] ("@@0@01x@".toList ++ "y@0".toList) = .ok "@@1bx@y@1".toList ∧
    ∃ ds, Missing ["@1", "b"] "@0@99999999999999999999@2".toList ds ∧
      String.ofList ds = "99999999999999999999" := by
  have hfirst : interpolate ["@1", "b"] "@@0@01x@".toList = .ok "@@1bx@".toList := by cbv
  have hsecond : interpolate ["@1", "b"] "y@0".toList = .ok "y@1".toList := by cbv
  have herror : interpolate ["@1", "b"] "@0@99999999999999999999@2".toList =
      .error (.missingArgument "99999999999999999999" 2) := by cbv
  obtain ⟨-, -, hfilled, happend⟩ := interpolate_exact ["@1", "b"] "@@0@01x@".toList
  obtain ⟨-, hmissing, -⟩ := interpolate_exact ["@1", "b"] "@0@99999999999999999999@2".toList
  refine ⟨(hfilled _).1 hfirst, ?_, ?_⟩
  · have hseam : ¬∃ d ∈ "y@0".toList.head?, Digit d := by
      rintro ⟨d, hd, hdigit⟩
      cases hd
      exact absurd hdigit (by decide)
    rw [happend _ fun h => hseam h.2, hfirst, hsecond]
    rfl
  · obtain ⟨ds, hds, hfault⟩ := (hmissing _).1 herror
    exact ⟨ds, hds, (Fault.missingArgument.inj hfault).1.symm⟩

end HeapScript
