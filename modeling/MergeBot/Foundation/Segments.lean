import Mathlib.Data.List.DropRight
import Mathlib.Data.List.Infix

/-!
# Replacing occurrences from left to right

`replaceEach` replaces every occurrence of a pattern that does not overlap an earlier one and
that is accepted by the text behind it. Its result is a list of segments, which tells the
elements that stay from those that have been put in; `original_replaceEach` puts the pattern
back. `replaceEach_eq_iff` says when it makes no difference to accept every occurrence.
`replaceAll` is the text that comes out when every occurrence is accepted, and
`rdropWhile_replaceAll_iff` says when it is the old text but for blanks at its end.
-/

namespace MergeBot.Foundation

universe u

/-- A part of a result: an element of the text, or what took the place of an occurrence. -/
inductive Segment (α : Type u)
  | kept (element : α)
  | replaced (replacement : List α)
deriving DecidableEq, Repr

namespace Segment

variable {α : Type u}

/-- What stands in the result. -/
def text : Segment α → List α
  | kept element => [element]
  | replaced replacement => replacement

/-- What stood in the text. -/
def original (pattern : List α) : Segment α → List α
  | kept element => [element]
  | replaced _ => pattern

end Segment

variable {α : Type u} [DecidableEq α]

/-- Replace the accepted occurrences; `skipped` elements belong to one that has been
replaced. -/
def replaceEach (accepted : List α → Bool) (pattern replacement : List α) :
    Nat → List α → List (Segment α)
  | _ + 1, [] => []
  | skipped + 1, _ :: rest => replaceEach accepted pattern replacement skipped rest
  | 0, [] => if pattern = [] ∧ accepted [] then [.replaced replacement] else []
  | 0, c :: rest =>
      if pattern <+: c :: rest ∧ accepted ((c :: rest).drop pattern.length) then
        match pattern.length with
        | 0 => .replaced replacement :: .kept c :: replaceEach accepted pattern replacement 0 rest
        | length + 1 =>
            .replaced replacement :: replaceEach accepted pattern replacement length rest
      else .kept c :: replaceEach accepted pattern replacement 0 rest

/-- The texts behind the occurrences that do not overlap an earlier one. -/
def behindEach (pattern : List α) : Nat → List α → List (List α)
  | _ + 1, [] => []
  | skipped + 1, _ :: rest => behindEach pattern skipped rest
  | 0, [] => if pattern = [] then [[]] else []
  | 0, c :: rest =>
      if pattern <+: c :: rest then
        (c :: rest).drop pattern.length :: behindEach pattern (pattern.length - 1) rest
      else behindEach pattern 0 rest

/-- With the pattern back in its places the result is the text again. -/
theorem original_replaceEach (accepted : List α → Bool) (pattern replacement : List α)
    (skipped : Nat) (text : List α) :
    (replaceEach accepted pattern replacement skipped text).flatMap (Segment.original pattern) =
      text.drop skipped := by
  induction text generalizing skipped with
  | nil =>
      cases skipped with
      | zero =>
          rw [replaceEach]
          split
          · rename_i here
            simp [Segment.original, here.1]
          · rfl
      | succ skipped => rfl
  | cons c rest inductionHypothesis =>
      cases skipped with
      | succ skipped => exact inductionHypothesis skipped
      | zero =>
          rw [replaceEach, List.drop_zero]
          split
          · rename_i here
            obtain ⟨after, split⟩ := here.1
            cases pattern with
            | nil => simp [Segment.original, inductionHypothesis]
            | cons head tail =>
                rw [List.cons_append, List.cons.injEq] at split
                have later := inductionHypothesis tail.length
                rw [← split.2, List.drop_left] at later
                simp [Segment.original, ← split.1, ← split.2, later]
          · simp [Segment.original, inductionHypothesis]

/-- There is an occurrence to replace exactly when the pattern occurs. -/
theorem behindEach_ne_nil_iff {pattern text : List α} :
    behindEach pattern 0 text ≠ [] ↔ pattern <:+: text := by
  induction text with
  | nil => by_cases empty : pattern = [] <;> simp [behindEach, empty]
  | cons c rest inductionHypothesis =>
      rw [behindEach]
      split
      · rename_i here
        exact iff_of_true (List.cons_ne_nil _ _) here.isInfix
      · rename_i elsewhere
        rw [inductionHypothesis, List.infix_cons_iff, or_iff_right elsewhere]

/-- It makes no difference to accept every occurrence exactly when each of them is accepted, and
what takes their place is the same. -/
theorem replaceEach_eq_iff {accepted : List α → Bool} {pattern replacement other : List α}
    {skipped : Nat} {text : List α} :
    replaceEach (fun _ => true) pattern replacement skipped text =
        replaceEach accepted pattern other skipped text ↔
      (∀ rest ∈ behindEach pattern skipped text, accepted rest = true) ∧
        (behindEach pattern skipped text ≠ [] → replacement = other) := by
  induction text generalizing skipped with
  | nil =>
      cases skipped with
      | succ skipped => simp [replaceEach, behindEach]
      | zero =>
          by_cases empty : pattern = []
          · by_cases accepts : accepted [] = true <;> simp [replaceEach, behindEach, empty, accepts]
          · simp [replaceEach, behindEach, empty]
  | cons c rest inductionHypothesis =>
      cases skipped with
      | succ skipped => exact inductionHypothesis
      | zero =>
          by_cases here : pattern <+: c :: rest
          · by_cases accepts : accepted ((c :: rest).drop pattern.length) = true
            · have later := @inductionHypothesis (pattern.length - 1)
              cases pattern with
              | nil =>
                  simp only [List.length_nil, Nat.zero_sub] at later
                  simp only [List.length_nil, List.drop_zero] at accepts
                  simp [replaceEach, behindEach, accepts, later]
                  tauto
              | cons head tail =>
                  simp only [List.length_cons, Nat.add_sub_cancel] at later
                  simp only [List.length_cons, List.drop_succ_cons] at accepts
                  simp [replaceEach, behindEach, here, accepts, later]
                  tauto
            · -- the occurrence is replaced on one side only
              refine iff_of_false (fun same => ?_) fun both => ?_
              · rw [replaceEach, replaceEach, if_pos ⟨here, rfl⟩,
                  if_neg fun both => accepts both.2] at same
                cases pattern <;> simp at same
              · rw [behindEach, if_pos here] at both
                exact accepts (both.1 _ List.mem_cons_self)
          · simp [replaceEach, behindEach, here, inductionHypothesis]

/-! ## Replacing every occurrence -/

/-- The text with every occurrence replaced. -/
def replaceAll (pattern replacement text : List α) : List α :=
  (replaceEach (fun _ => true) pattern replacement 0 text).flatMap Segment.text

variable {pattern replacement text : List α}

/-- Skipping elements is starting behind them. -/
theorem replaceEach_skipped (accepted : List α → Bool) (nonempty : pattern ≠ []) (skipped : Nat)
    (text : List α) :
    replaceEach accepted pattern replacement skipped text =
      replaceEach accepted pattern replacement 0 (text.drop skipped) := by
  induction text generalizing skipped with
  | nil => cases skipped <;> simp [replaceEach, nonempty]
  | cons c rest inductionHypothesis =>
      cases skipped with
      | zero => rfl
      | succ skipped => exact inductionHypothesis skipped

/-- The same for the texts behind the occurrences. -/
theorem behindEach_skipped (nonempty : pattern ≠ []) (skipped : Nat) (text : List α) :
    behindEach pattern skipped text = behindEach pattern 0 (text.drop skipped) := by
  induction text generalizing skipped with
  | nil => cases skipped <;> simp [behindEach, nonempty]
  | cons c rest inductionHypothesis =>
      cases skipped with
      | zero => rfl
      | succ skipped => exact inductionHypothesis skipped

variable (replacement) in
/-- An occurrence at the beginning is replaced. -/
theorem replaceAll_append (nonempty : pattern ≠ []) (rest : List α) :
    replaceAll pattern replacement (pattern ++ rest) =
        replacement ++ replaceAll pattern replacement rest ∧
      behindEach pattern 0 (pattern ++ rest) = rest :: behindEach pattern 0 rest := by
  obtain ⟨head, tail, rfl⟩ := List.exists_cons_of_ne_nil nonempty
  have here : head :: tail <+: head :: (tail ++ rest) := List.prefix_append (head :: tail) rest
  constructor
  · rw [replaceAll, List.cons_append, replaceEach, if_pos ⟨here, rfl⟩]
    simp only [List.length_cons, List.flatMap_cons, Segment.text]
    rw [replaceEach_skipped _ nonempty, List.drop_left, replaceAll]
  · rw [List.cons_append, behindEach, if_pos here, behindEach_skipped nonempty]
    simp

variable (replacement) in
/-- An element that begins no occurrence stays. -/
theorem replaceAll_cons {c : α} {rest : List α} (elsewhere : ¬ pattern <+: c :: rest) :
    replaceAll pattern replacement (c :: rest) = c :: replaceAll pattern replacement rest ∧
      behindEach pattern 0 (c :: rest) = behindEach pattern 0 rest := by
  constructor
  · rw [replaceAll, replaceEach, if_neg fun both => elsewhere both.1]
    rfl
  · rw [behindEach, if_neg elsewhere]

variable (replacement) in
/-- Elements before the first occurrence stay. -/
theorem replaceAll_front {front : List α} {rest : List α}
    (elsewhere : ∀ before after, front = before ++ after → after ≠ [] →
      ¬ pattern <+: after ++ rest) :
    replaceAll pattern replacement (front ++ rest) = front ++ replaceAll pattern replacement rest ∧
      behindEach pattern 0 (front ++ rest) = behindEach pattern 0 rest := by
  induction front with
  | nil => exact ⟨rfl, rfl⟩
  | cons c front inductionHypothesis =>
      have here : ¬ pattern <+: c :: (front ++ rest) :=
        elsewhere [] (c :: front) rfl (List.cons_ne_nil _ _)
      obtain ⟨replaced, behind⟩ := replaceAll_cons replacement here
      obtain ⟨later, laterBehind⟩ := inductionHypothesis fun before after split =>
        elsewhere (c :: before) after (by rw [split, List.cons_append])
      rw [List.cons_append, List.cons_append]
      exact ⟨by rw [replaced, later], by rw [behind, laterBehind]⟩

variable (replacement) in
/-- A text with an occurrence is cut at the first one. -/
theorem exists_first (nonempty : pattern ≠ []) (occurs : pattern <:+: text) :
    ∃ front back, text = front ++ (pattern ++ back) ∧
      replaceAll pattern replacement text =
        front ++ (replacement ++ replaceAll pattern replacement back) ∧
      behindEach pattern 0 text = back :: behindEach pattern 0 back := by
  induction text with
  | nil => exact absurd (List.infix_nil.mp occurs) nonempty
  | cons c rest inductionHypothesis =>
      by_cases here : pattern <+: c :: rest
      · obtain ⟨back, split⟩ := here
        obtain ⟨replaced, behind⟩ := replaceAll_append replacement nonempty back
        exact ⟨[], back, split.symm, split ▸ replaced, split ▸ behind⟩
      · obtain ⟨front, back, split, replaced, behind⟩ :=
          inductionHypothesis ((List.infix_cons_iff.mp occurs).resolve_left here)
        obtain ⟨replacedCons, behindCons⟩ := replaceAll_cons replacement here
        exact ⟨c :: front, back, by rw [split, List.cons_append],
          by rw [replacedCons, replaced, List.cons_append], behindCons.trans behind⟩

/-- Without an occurrence the text stays. -/
theorem replaceAll_of_absent (missing : ¬ pattern <:+: text) :
    replaceAll pattern replacement text = text := by
  induction text with
  | nil =>
      have nonempty : pattern ≠ [] := fun empty => missing (empty ▸ List.nil_infix)
      simp [replaceAll, replaceEach, nonempty]
  | cons c rest inductionHypothesis =>
      rw [List.infix_cons_iff, not_or] at missing
      rw [(replaceAll_cons _ missing.1).1, inductionHypothesis missing.2]

/-- Putting the pattern in its own places changes nothing. -/
theorem replaceAll_self (nonempty : pattern ≠ []) (text : List α) :
    replaceAll pattern pattern text = text := by
  induction length : text.length using Nat.strong_induction_on generalizing text with
  | _ size inductionHypothesis =>
    by_cases occurs : pattern <:+: text
    · obtain ⟨front, back, split, replaced, -⟩ := exists_first pattern nonempty occurs
      have some := List.length_pos_iff.mpr nonempty
      have shorter : back.length < size := by
        rw [← length, split, List.length_append, List.length_append]
        omega
      rw [replaced, inductionHypothesis back.length shorter back rfl, ← split]
    · exact replaceAll_of_absent occurs

variable (replacement) in
/-- Counting in the text that comes out. -/
theorem countP_replaceAll (nonempty : pattern ≠ []) (counted : α → Bool) (text : List α) :
    (replaceAll pattern replacement text).countP counted +
        (behindEach pattern 0 text).length * pattern.countP counted =
      text.countP counted + (behindEach pattern 0 text).length * replacement.countP counted := by
  induction length : text.length using Nat.strong_induction_on generalizing text with
  | _ size inductionHypothesis =>
    by_cases occurs : pattern <:+: text
    · obtain ⟨front, back, split, replaced, behind⟩ :=
        exists_first replacement nonempty occurs
      have some := List.length_pos_iff.mpr nonempty
      have shorter : back.length < size := by
        rw [← length, split, List.length_append, List.length_append]
        omega
      have later := inductionHypothesis back.length shorter back rfl
      rw [replaced, behind, split]
      simp only [List.countP_append, List.length_cons, Nat.add_mul, Nat.one_mul]
      omega
    · have none := not_not.mp (mt behindEach_ne_nil_iff.mp occurs)
      rw [replaceAll_of_absent occurs, none]
      simp

/-! ## Blanks at the end -/

section Trimmed

variable {blank : α → Bool}

/-- The text has no occurrence, or the replacement is the pattern, but for blanks behind it when
the only occurrence ends the text. -/
def Unharmed (blank : α → Bool) (pattern replacement text : List α) : Prop :=
  ¬ pattern <:+: text ∨ replacement = pattern ∨
    behindEach pattern 0 text = [[]] ∧
      ∃ blanks, (∀ c ∈ blanks, blank c = true) ∧ replacement = pattern ++ blanks

/-- A text whose result is the text moved behind some blanks is empty. -/
theorem eq_nil_of_shifted {blanks after : List α} (some_ : blanks ≠ [])
    (areBlank : ∀ c ∈ blanks, blank c = true) (head : ∀ c ∈ pattern.head?, blank c = false)
    (nonempty : pattern ≠ []) (last : ∀ c ∈ text.getLast?, blank c = false)
    (shifted : blanks ++ replaceAll pattern replacement text = text ++ after) : text = [] := by
  induction length : text.length using Nat.strong_induction_on generalizing text with
  | _ size inductionHypothesis =>
    have notBlank : ∀ part : List α, part <+: blanks → text ≠ part ∨ part = [] := by
      intro part inside
      by_contra both
      obtain ⟨same, partSome⟩ := not_or.mp both
      rw [not_not] at same
      have member := inside.subset (List.getLast_mem partSome)
      have solid := last (part.getLast partSome)
        (by rw [same]; exact List.getLast?_eq_some_getLast _)
      rw [areBlank _ member] at solid
      exact Bool.noConfusion solid
    rcases List.append_eq_append_iff.mp shifted with ⟨back, split, later⟩ | ⟨more, split, -⟩
    · -- no occurrence begins among the blanks, so the text behind them is shifted as well
      have front : replaceAll pattern replacement (blanks ++ back) =
          blanks ++ replaceAll pattern replacement back := by
        refine (replaceAll_front _ fun before tail parts tailSome here => ?_).1
        obtain ⟨c, pattern, rfl⟩ := List.exists_cons_of_ne_nil nonempty
        obtain ⟨d, tail, rfl⟩ := List.exists_cons_of_ne_nil tailSome
        rw [List.cons_append, List.cons_prefix_cons] at here
        have isBlank := areBlank c (by rw [parts, here.1]; simp)
        rw [head c rfl] at isBlank
        exact Bool.noConfusion isBlank
      have blanksPositive := List.length_pos_iff.mpr some_
      have shorter : back.length < size := by
        rw [← length, split, List.length_append]
        omega
      have backSome : back ≠ [] := fun empty => by
        rw [empty, List.append_nil] at split
        exact (notBlank blanks (List.prefix_refl _)).elim (fun other => other split) some_
      rw [split, front] at later
      refine absurd (inductionHypothesis back.length shorter ?_ later rfl) backSome
      rwa [split, List.getLast?_append_of_ne_nil _ backSome] at last
    · exact (notBlank text ⟨more, split.symm⟩).resolve_left (not_not.mpr rfl)

omit [DecidableEq α] in
/-- Dropping blanks at the end leaves a text that does not end in one, exactly when only blanks
stand behind it. -/
theorem rdropWhile_eq_iff {whole : List α} (last : ∀ c ∈ text.getLast?, blank c = false) :
    whole.rdropWhile blank = text ↔
      ∃ blanks, (∀ c ∈ blanks, blank c = true) ∧ whole = text ++ blanks := by
  constructor
  · rintro rfl
    exact ⟨whole.rtakeWhile blank, fun c => List.mem_rtakeWhile_imp,
      List.rdropWhile_append_rtakeWhile.symm⟩
  · rintro ⟨blanks, areBlank, rfl⟩
    have same : (text ++ blanks).rdropWhile blank = text.rdropWhile blank := by
      rw [List.rdropWhile, List.reverse_append,
        List.dropWhile_append_of_pos fun c member => areBlank c (List.mem_reverse.mp member),
        ← List.rdropWhile]
    rw [same, List.rdropWhile_eq_self_iff]
    intro some_
    have solid := last _ (List.getLast?_eq_some_getLast some_)
    simp [solid]

/-- If replacing only puts blanks behind a text that has an occurrence, the replacement is the
pattern with blanks behind it. -/
theorem replacement_eq_of_restored {after : List α} (nonempty : pattern ≠ [])
    (occurs : pattern <:+: text) (areBlank : ∀ c ∈ after, blank c = true)
    (same : replaceAll pattern replacement text = text ++ after) :
    ∃ more, (∀ c ∈ more, blank c = true) ∧ replacement = pattern ++ more := by
  obtain ⟨front, back, split, replaced, behind⟩ := exists_first replacement nonempty occurs
  have later : replacement ++ replaceAll pattern replacement back = pattern ++ (back ++ after) := by
    rw [replaced, split] at same
    simpa using same
  have counts (counted : α → Bool) := countP_replaceAll replacement nonempty counted text
  simp only [same, behind, List.countP_append, List.length_cons] at counts
  -- the replacement is no shorter, and it has as many solid elements
  have lengths := counts fun _ => true
  simp only [List.countP_true] at lengths
  have longer : pattern.length ≤ replacement.length :=
    Nat.le_of_mul_le_mul_left (c := (behindEach pattern 0 back).length + 1) (by omega) (by omega)
  obtain ⟨more, rfl⟩ := List.prefix_of_prefix_length_le
    (later ▸ List.prefix_append pattern (back ++ after)) (List.prefix_append replacement _) longer
  have solid := counts fun c => !blank c
  have afterSolid : after.countP (fun c => !blank c) = 0 :=
    List.countP_eq_zero.mpr fun c member => by simp [areBlank c member]
  rw [afterSolid, List.countP_append, Nat.mul_add] at solid
  have product :
      ((behindEach pattern 0 back).length + 1) * more.countP (fun c => !blank c) = 0 := by
    omega
  have moreSolid := (Nat.mul_eq_zero.mp product).resolve_left (Nat.succ_ne_zero _)
  exact ⟨more, fun c member => by simpa using List.countP_eq_zero.mp moreSolid c member, rfl⟩

/-- Replacing the occurrences and dropping blanks at the end leaves the text as it was exactly
when it is unharmed. -/
theorem rdropWhile_replaceAll_iff (nonempty : pattern ≠ [])
    (head : ∀ c ∈ pattern.head?, blank c = false) (last : ∀ c ∈ text.getLast?, blank c = false) :
    (replaceAll pattern replacement text).rdropWhile blank = text ↔
      Unharmed blank pattern replacement text := by
  rw [rdropWhile_eq_iff last]
  by_cases occurs : pattern <:+: text
  · obtain ⟨front, back, split, replaced, behind⟩ :=
      exists_first replacement nonempty occurs
    constructor
    · rintro ⟨after, areBlank, same⟩
      obtain ⟨more, moreBlank, rfl⟩ := replacement_eq_of_restored nonempty occurs areBlank same
      by_cases empty : more = []
      · exact .inr (.inl (by rw [empty, List.append_nil]))
      have shifted : more ++ replaceAll pattern (pattern ++ more) back = back ++ after := by
        rw [replaced, split] at same
        simpa using same
      have backLast : ∀ c ∈ back.getLast?, blank c = false := by
        intro c ending
        have backSome : back ≠ [] := fun none => by simp [none] at ending
        apply last c
        rwa [split, List.getLast?_append_of_ne_nil _ (by simp [backSome]),
          List.getLast?_append_of_ne_nil _ backSome]
      have noBack := eq_nil_of_shifted empty moreBlank head nonempty backLast shifted
      rw [noBack] at behind
      exact .inr (.inr ⟨by rw [behind]; simp [behindEach, nonempty], more, moreBlank, rfl⟩)
    · rintro (missing | rfl | ⟨atEnd, blanks, areBlank, rfl⟩)
      · exact absurd occurs missing
      · exact ⟨[], by simp, by rw [replaceAll_self nonempty, List.append_nil]⟩
      · rw [behind, List.cons.injEq] at atEnd
        refine ⟨blanks, areBlank, ?_⟩
        rw [replaced, split, atEnd.1]
        simp [replaceAll, replaceEach, nonempty]
  · rw [replaceAll_of_absent occurs]
    exact iff_of_true ⟨[], by simp, by simp⟩ (.inl occurs)

end Trimmed

end MergeBot.Foundation
