import Mathlib.Data.List.Basic
import Mathlib.Data.List.Induction
import Mathlib.Data.List.Infix

/-!
# Substring search in texts made of lines

`Search.find` is the leftmost occurrence of a pattern. In a text made of lines
a pattern without line breaks occurs inside one line, so a search can be
followed line by line: `find_line` is the step. `upTo_unlines` tells the text
before the first occurrence of a mark that some line begins with: whole lines
if the mark occurs in none of them, and otherwise a text that stops in the
middle of a line.
-/

namespace MergeBot.Foundation

universe u

variable {α : Type u} [DecidableEq α]

namespace Search

/-- Position of the leftmost occurrence of a pattern. -/
def find (pattern : List α) : List α → Option Nat
  | [] => if pattern.isEmpty then some 0 else none
  | head :: tail =>
      if pattern.isPrefixOf (head :: tail) then some 0 else (find pattern tail).map (· + 1)

/-- Position of the leftmost occurrence at or after `start`. -/
def findFrom (pattern text : List α) (start : Nat) : Option Nat :=
  if start ≤ text.length then (find pattern (text.drop start)).map (· + start) else none

/-- A search fails exactly when the pattern does not occur. -/
theorem find_eq_none_iff {pattern text : List α} :
    find pattern text = none ↔ ¬ pattern <:+: text := by
  induction text with
  | nil => cases pattern <;> simp [find]
  | cons head tail ih =>
      by_cases here : pattern <+: head :: tail
      · simp [find, here, here.isInfix]
      · simp [find, here, ih, List.infix_cons_iff]

/-- An occurrence at the start is found there. -/
theorem find_of_prefix {pattern text : List α} (here : pattern <+: text) :
    find pattern text = some 0 := by
  cases text with
  | nil => simp [find, List.prefix_nil.mp here]
  | cons head tail => simp [find, here]

/-- What is found is at the start, or found in the rest only. -/
theorem find_cases {pattern text : List α} {position : Nat}
    (found : find pattern text = some position) :
    (pattern <+: text ∧ position = 0) ∨ ∃ head tail later, text = head :: tail ∧
      ¬ pattern <+: text ∧ find pattern tail = some later ∧ position = later + 1 := by
  cases text with
  | nil =>
      rw [find] at found
      split at found
      · rename_i empty
        refine .inl ⟨?_, (Option.some.inj found).symm⟩
        rw [List.isEmpty_iff.mp empty]
      · simp at found
  | cons head tail =>
      rw [find] at found
      split at found
      · rename_i here
        exact .inl ⟨List.isPrefixOf_iff_prefix.mp here, (Option.some.inj found).symm⟩
      · rename_i elsewhere
        obtain ⟨later, laterFound, rfl⟩ := Option.map_eq_some_iff.mp found
        exact .inr ⟨head, tail, later, rfl, by simpa using elsewhere, laterFound, rfl⟩

/-- A search finds an occurrence. -/
theorem prefix_of_find {pattern text : List α} {position : Nat}
    (found : find pattern text = some position) : pattern <+: text.drop position := by
  induction position generalizing text with
  | zero =>
      rcases find_cases found with ⟨here, -⟩ | ⟨_, _, _, -, -, -, impossible⟩
      · exact here
      · omega
  | succ later ih =>
      rcases find_cases found with ⟨-, impossible⟩ | ⟨head, tail, _, rfl, -, laterFound, same⟩
      · omega
      · obtain rfl := Nat.succ.inj same
        exact ih laterFound

/-- A search finds a position of the text. -/
theorem find_le {pattern text : List α} {position : Nat}
    (found : find pattern text = some position) : position ≤ text.length := by
  induction position generalizing text with
  | zero => exact Nat.zero_le _
  | succ later ih =>
      rcases find_cases found with ⟨-, impossible⟩ | ⟨head, tail, _, rfl, -, laterFound, same⟩
      · omega
      · obtain rfl := Nat.succ.inj same
        exact Nat.succ_le_succ (ih laterFound)

/-- A pattern that is not at the start is not found there. -/
theorem find_pos {pattern text : List α} (elsewhere : ¬ pattern <+: text) {position : Nat}
    (found : find pattern text = some position) : 0 < position := by
  rcases find_cases found with ⟨here, -⟩ | ⟨_, _, later, -, -, -, rfl⟩
  · exact absurd here elsewhere
  · exact Nat.succ_pos later

/-- The occurrence that is found is the first one. -/
theorem find_first {pattern text : List α} {position : Nat}
    (found : find pattern text = some position) :
    ∀ earlier < position, ¬ pattern <+: text.drop earlier := by
  induction position generalizing text with
  | zero => simp
  | succ later ih =>
      rcases find_cases found with ⟨-, impossible⟩ | ⟨head, tail, _, rfl, elsewhere, laterFound, same⟩
      · omega
      · obtain rfl := Nat.succ.inj same
        intro earlier inside
        cases earlier with
        | zero => exact elsewhere
        | succ earlier => exact ih laterFound earlier (Nat.lt_of_succ_lt_succ inside)

/-- A search from the end of the first part of a text is one in the second part. -/
theorem findFrom_append (pattern before text : List α) :
    findFrom pattern (before ++ text) before.length =
      (find pattern text).map (· + before.length) := by
  rw [findFrom, if_pos (by simp), List.drop_left]

/-- What is found in the first part of a text is found there first. -/
theorem find_append_of_some {pattern first : List α} {position : Nat}
    (found : find pattern first = some position) (rest : List α) :
    find pattern (first ++ rest) = some position := by
  induction position generalizing first with
  | zero =>
      exact find_of_prefix ((prefix_of_find found).trans (List.prefix_append first rest))
  | succ later ih =>
      rcases find_cases found with ⟨-, impossible⟩ | ⟨head, tail, _, rfl, elsewhere, laterFound, same⟩
      · omega
      · obtain rfl := Nat.succ.inj same
        have notLonger : ¬ pattern <+: head :: (tail ++ rest) := fun longer => by
          by_cases fits : pattern.length ≤ (head :: tail).length
          · exact elsewhere (List.prefix_of_prefix_length_le longer
              (List.prefix_append (head :: tail) rest) fits)
          · -- the pattern occurs in the tail, so it is not longer than it
            have inside := (prefix_of_find laterFound).length_le
            simp only [List.length_drop, List.length_cons] at inside fits
            omega
        rw [List.cons_append, find, if_neg (by simpa using notLonger), ih laterFound]
        rfl

end Search

/-- Lines joined to a text, each followed by the line break. -/
def unlines (lineBreak : α) (lines : List (List α)) : List α :=
  lines.flatMap (· ++ [lineBreak])

section Lines

variable {lineBreak : α} {pattern : List α}

omit [DecidableEq α] in
@[simp]
theorem unlines_nil : unlines lineBreak [] = [] := rfl

omit [DecidableEq α] in
@[simp]
theorem unlines_cons (line : List α) (lines : List (List α)) :
    unlines lineBreak (line :: lines) = line ++ lineBreak :: unlines lineBreak lines := by
  simp [unlines]

omit [DecidableEq α] in
@[simp]
theorem unlines_append (first second : List (List α)) :
    unlines lineBreak (first ++ second) =
      unlines lineBreak first ++ unlines lineBreak second := by
  simp [unlines]

omit [DecidableEq α] in
/-- Every line has its line break. -/
theorem length_le_unlines (lines : List (List α)) :
    lines.length ≤ (unlines lineBreak lines).length := by
  induction lines with
  | nil => simp
  | cons line rest ih =>
      simp only [unlines_cons, List.length_append, List.length_cons]
      omega

/-- The complete lines of a text and what follows the last line break. -/
def splitLines (lineBreak : α) : List α → List (List α) × List α
  | [] => ([], [])
  | head :: tail =>
      if head = lineBreak then ([] :: (splitLines lineBreak tail).1, (splitLines lineBreak tail).2)
      else
        match splitLines lineBreak tail with
        | ([], last) => ([], head :: last)
        | (line :: lines, last) => ((head :: line) :: lines, last)

/-- The pieces are the text again. -/
theorem splitLines_text (lineBreak : α) (text : List α) :
    unlines lineBreak (splitLines lineBreak text).1 ++ (splitLines lineBreak text).2 = text := by
  induction text with
  | nil => rfl
  | cons head tail ih =>
      rw [splitLines]
      by_cases isBreak : head = lineBreak
      · simp [isBreak, ih]
      · rw [if_neg isBreak]
        revert ih
        obtain ⟨lines, last⟩ := splitLines lineBreak tail
        cases lines <;> rintro rfl <;> simp

/-- No piece contains a line break. -/
theorem splitLines_single (lineBreak : α) (text : List α) :
    (∀ line ∈ (splitLines lineBreak text).1, lineBreak ∉ line) ∧
      lineBreak ∉ (splitLines lineBreak text).2 := by
  induction text with
  | nil => simp [splitLines]
  | cons head tail ih =>
      rw [splitLines]
      by_cases isBreak : head = lineBreak
      · simpa [isBreak] using ih
      · rw [if_neg isBreak]
        revert ih
        obtain ⟨lines, last⟩ := splitLines lineBreak tail
        cases lines <;> simp_all [Ne.symm isBreak]

/-- Without a line break there is no complete line. -/
theorem splitLines_last {last : List α} (single : lineBreak ∉ last) :
    splitLines lineBreak last = ([], last) := by
  induction last with
  | nil => rfl
  | cons head tail ih =>
      rw [List.mem_cons, not_or] at single
      rw [splitLines, if_neg (Ne.symm single.1), ih single.2]

/-- A text up to its first line break is a line. -/
theorem splitLines_line {line : List α} (single : lineBreak ∉ line) (rest : List α) :
    splitLines lineBreak (line ++ lineBreak :: rest) =
      (line :: (splitLines lineBreak rest).1, (splitLines lineBreak rest).2) := by
  induction line with
  | nil => simp [splitLines]
  | cons head tail ih =>
      rw [List.mem_cons, not_or] at single
      rw [List.cons_append, splitLines, if_neg (Ne.symm single.1), ih single.2]

/-- Splitting undoes joining. -/
theorem splitLines_unlines {lines : List (List α)} (single : ∀ line ∈ lines, lineBreak ∉ line)
    {last : List α} (lastSingle : lineBreak ∉ last) :
    splitLines lineBreak (unlines lineBreak lines ++ last) = (lines, last) := by
  induction lines with
  | nil => exact splitLines_last lastSingle
  | cons line lines ih =>
      obtain ⟨lineSingle, linesSingle⟩ := List.forall_mem_cons.mp single
      rw [unlines_cons, List.append_assoc, List.cons_append, splitLines_line lineSingle,
        ih linesSingle]

/-- The pieces are those between the line breaks. -/
theorem splitOn_unlines {lines : List (List α)} (single : ∀ line ∈ lines, lineBreak ∉ line)
    {last : List α} (lastSingle : lineBreak ∉ last) :
    (unlines lineBreak lines ++ last).splitOn lineBreak = lines ++ [last] := by
  induction lines with
  | nil => exact List.splitOn_eq_singleton lastSingle
  | cons line lines ih =>
      obtain ⟨lineSingle, linesSingle⟩ := List.forall_mem_cons.mp single
      rw [unlines_cons, List.append_assoc, List.cons_append,
        List.splitOn_append_cons_self_of_not_mem lineSingle, ih linesSingle, List.cons_append]

/-- The lines that are read one by one: what follows the last line break is a line unless it is
empty. -/
def getlines (lineBreak : α) (text : List α) : List (List α) :=
  (splitLines lineBreak text).1 ++
    if (splitLines lineBreak text).2 = [] then [] else [(splitLines lineBreak text).2]

/-- Number of elements up to and including the first line break. -/
def lineSpan (lineBreak : α) : List α → Nat
  | [] => 0
  | head :: tail => if head = lineBreak then 1 else lineSpan lineBreak tail + 1

theorem lineSpan_line {line rest : List α} (single : lineBreak ∉ line) :
    lineSpan lineBreak (line ++ lineBreak :: rest) = line.length + 1 := by
  induction line with
  | nil => simp [lineSpan]
  | cons head tail ih =>
      rw [List.mem_cons, not_or] at single
      simp [lineSpan, Ne.symm single.1, ih single.2]

omit [DecidableEq α] in
/-- A pattern without line breaks is a prefix of a line or of nothing. -/
theorem prefix_line_iff (inLine : lineBreak ∉ pattern) (line rest : List α) :
    pattern <+: line ++ lineBreak :: rest ↔ pattern <+: line := by
  constructor
  · intro long
    by_cases fits : pattern.length ≤ line.length
    · exact List.prefix_of_prefix_length_le long (List.prefix_append _ _) fits
    · have whole : line ++ [lineBreak] <+: line ++ lineBreak :: rest := by
        exact ⟨rest, by simp⟩
      have covered := List.prefix_of_prefix_length_le whole long (by simp; omega)
      exact absurd (covered.subset (by simp)) inLine
  · exact fun short => short.trans (List.prefix_append _ _)

/-- A search looks through the first line and then through the rest. -/
theorem find_line (inLine : lineBreak ∉ pattern) (nonempty : pattern ≠ [])
    (line rest : List α) :
    Search.find pattern (line ++ lineBreak :: rest) =
      match Search.find pattern line with
      | some position => some position
      | none => (Search.find pattern rest).map (· + (line.length + 1)) := by
  induction line with
  | nil =>
      have absent : ¬ pattern <+: lineBreak :: rest := fun here =>
        nonempty (List.prefix_nil.mp ((prefix_line_iff inLine [] rest).mp here))
      simp [Search.find, absent, nonempty]
  | cons head tail ih =>
      have same : pattern <+: head :: (tail ++ lineBreak :: rest) ↔ pattern <+: head :: tail :=
        prefix_line_iff inLine (head :: tail) rest
      by_cases here : pattern <+: head :: tail
      · simp [Search.find, same, here]
      · simp only [List.cons_append, Search.find, List.isPrefixOf_iff_prefix, same, here,
          if_false, ih]
        cases Search.find pattern tail with
        | some position => simp
        | none => simp [Option.map_map, Function.comp_def, Nat.add_assoc]

omit [DecidableEq α] in
/-- A pattern is in the first line, in the rest, or begins in the line and goes on behind it. -/
theorem infix_line_cases {line rest : List α} (occurs : pattern <:+: line ++ lineBreak :: rest) :
    pattern <:+: line ∨ pattern <:+: rest ∨
      ∃ first later, pattern = first ++ lineBreak :: later ∧ first <:+ line := by
  obtain ⟨before, after, whole⟩ := occurs
  rcases List.append_eq_append_iff.mp whole with ⟨between, line_eq, -⟩ | ⟨between, start, stop⟩
  · exact .inl ⟨before, between, line_eq.symm⟩
  cases between with
  | nil => exact .inl ⟨before, [], by simpa using start⟩
  | cons c between =>
      obtain ⟨rfl, rfl⟩ := List.cons.inj stop
      rcases List.append_eq_append_iff.mp start with ⟨first, line_eq, rfl⟩ | ⟨skipped, -, last⟩
      · exact .inr (.inr ⟨first, between, rfl, before, line_eq.symm⟩)
      · cases skipped with
        | nil => exact .inr (.inr ⟨[], between, by simpa using last.symm, List.nil_suffix⟩)
        | cons other skipped =>
            obtain ⟨-, rfl⟩ := List.cons.inj last
            exact .inr (.inl ⟨skipped, after, rfl⟩)

omit [DecidableEq α] in
/-- A pattern in a text made of lines is in one of them, unless one of them ends with its
beginning. -/
theorem infix_unlines_cases {lines : List (List α)} (nonempty : pattern ≠ [])
    (occurs : pattern <:+: unlines lineBreak lines) :
    (∃ line ∈ lines, pattern <:+: line) ∨
      ∃ line ∈ lines, ∃ first later, pattern = first ++ lineBreak :: later ∧ first <:+ line := by
  induction lines with
  | nil => exact absurd (List.infix_nil.mp occurs) nonempty
  | cons line rest ih =>
      rw [unlines_cons] at occurs
      rcases infix_line_cases occurs with inLine | inRest | across
      · exact .inl ⟨line, List.mem_cons_self, inLine⟩
      · exact (ih inRest).imp (fun ⟨other, member, inOther⟩ =>
            ⟨other, List.mem_cons_of_mem _ member, inOther⟩)
          fun ⟨other, member, across⟩ => ⟨other, List.mem_cons_of_mem _ member, across⟩
      · exact .inr ⟨line, List.mem_cons_self, across⟩

omit [DecidableEq α] in
/-- A pattern without line breaks in a text made of lines is in one of the lines. -/
theorem infix_unlines_iff (inLine : lineBreak ∉ pattern) (nonempty : pattern ≠ [])
    (lines : List (List α)) :
    pattern <:+: unlines lineBreak lines ↔ ∃ line ∈ lines, pattern <:+: line := by
  constructor
  · intro occurs
    rcases infix_unlines_cases nonempty occurs with inLines | ⟨_, _, first, later, rfl, -⟩
    · exact inLines
    · simp at inLine
  · rintro ⟨line, member, inside⟩
    obtain ⟨before, after, rfl⟩ := List.append_of_mem member
    rw [unlines_append, unlines_cons]
    exact inside.trans ⟨unlines lineBreak before, lineBreak :: unlines lineBreak after, by simp⟩

/-- The text before the first occurrence of a mark, or nothing if there is none. -/
def upTo (mark text : List α) : List α :=
  match Search.find mark text with
  | some position => text.take position
  | none => []

/-- The shape of a text made of whole lines. -/
def WholeLines (lineBreak : α) (text : List α) : Prop :=
  ∀ last ∈ text.getLast?, last = lineBreak

omit [DecidableEq α] in
theorem wholeLines_unlines (lines : List (List α)) :
    WholeLines lineBreak (unlines lineBreak lines) := by
  induction lines using List.reverseRecOn with
  | nil => simp [WholeLines]
  | append_singleton init last ih => simp [WholeLines]

/-- Whole lines are made of lines. -/
theorem WholeLines.exists_unlines {text : List α} (whole : WholeLines lineBreak text) :
    ∃ lines, (∀ line ∈ lines, lineBreak ∉ line) ∧ text = unlines lineBreak lines := by
  obtain ⟨single, lastSingle⟩ := splitLines_single lineBreak text
  have parts := splitLines_text lineBreak text
  refine ⟨(splitLines lineBreak text).1, single, ?_⟩
  by_cases empty : (splitLines lineBreak text).2 = []
  · rw [empty, List.append_nil] at parts
    exact parts.symm
  · -- the text would end with a character of the last piece
    have last : text.getLast? = some ((splitLines lineBreak text).2.getLast empty) := by
      conv_lhs => rw [← parts]
      rw [List.getLast?_append_of_ne_nil _ empty, List.getLast?_eq_getLast_of_ne_nil empty]
    have member := List.getLast_mem empty
    rw [whole _ last] at member
    exact absurd member lastSingle

omit [DecidableEq α] in
/-- A text ends with a line break when nothing follows its last line. -/
theorem getLast?_unlines_iff (lines : List (List α)) {last : List α}
    (single : lineBreak ∉ last) :
    (unlines lineBreak lines ++ last).getLast? = some lineBreak ↔ lines ≠ [] ∧ last = [] := by
  by_cases empty : last = []
  · subst empty
    cases lines using List.reverseRecOn <;> simp
  · rw [List.getLast?_append_of_ne_nil _ empty]
    exact iff_of_false (fun isLast => single (List.mem_of_getLast? isLast)) fun both =>
      empty both.2

omit [DecidableEq α] in
theorem wholeLines_line (line rest : List α) :
    WholeLines lineBreak (line ++ lineBreak :: rest) ↔ WholeLines lineBreak rest := by
  cases rest using List.reverseRecOn with
  | nil => simp [WholeLines]
  | append_singleton init last =>
      have shape : line ++ lineBreak :: (init ++ [last]) = (line ++ lineBreak :: init) ++ [last] := by
        simp
      rw [shape, WholeLines, WholeLines, List.getLast?_concat, List.getLast?_concat]

/-- Up to a line that begins with the mark there are only whole lines, unless
one of them contains the mark in its middle. -/
theorem upTo_unlines {lines : List (List α)} {stop : List α} (after : List α)
    (inLine : lineBreak ∉ pattern) (nonempty : pattern ≠ [])
    (single : ∀ line ∈ lines, lineBreak ∉ line)
    (notAtStart : ∀ line ∈ lines, ¬ pattern <+: line) (atStart : pattern <+: stop) :
    ((∀ line ∈ lines, ¬ pattern <:+: line) ∧
        upTo pattern (unlines lineBreak lines ++ stop ++ after) = unlines lineBreak lines) ∨
      ((∃ line ∈ lines, pattern <:+: line) ∧
        ¬ WholeLines lineBreak (upTo pattern (unlines lineBreak lines ++ stop ++ after))) := by
  induction lines with
  | nil =>
      left
      simp [upTo, Search.find_of_prefix (atStart.trans (List.prefix_append stop after))]
  | cons line lines ih =>
      have rest := ih (fun other member => single other (List.mem_cons_of_mem _ member))
        fun other member => notAtStart other (List.mem_cons_of_mem _ member)
      have lineStart := notAtStart line List.mem_cons_self
      have lineSingle := single line List.mem_cons_self
      have step := find_line inLine nonempty line (unlines lineBreak lines ++ stop ++ after)
      have shape : unlines lineBreak (line :: lines) ++ stop ++ after =
          line ++ lineBreak :: (unlines lineBreak lines ++ stop ++ after) := by simp
      rw [shape]
      cases found : Search.find pattern line with
      | some position =>
          right
          have inside : pattern <:+: line := by
            by_contra absent
            simp [Search.find_eq_none_iff.mpr absent] at found
          have positive := Search.find_pos lineStart found
          have bounded := Search.find_le found
          rw [found] at step
          refine ⟨⟨line, List.mem_cons_self, inside⟩, fun whole => ?_⟩
          simp only [upTo, step, List.take_append_of_le_length bounded] at whole
          have cut : line.take position ≠ [] := by
            rw [Ne, List.take_eq_nil_iff]
            rintro (zero | empty)
            · omega
            · simp [empty] at bounded
              omega
          have last := whole _ (List.getLast?_eq_getLast_of_ne_nil cut)
          exact lineSingle (last ▸ List.mem_of_mem_take (List.getLast_mem cut))
      | none =>
          have absent := Search.find_eq_none_iff.mp found
          rw [found] at step
          have occurs : pattern <:+: unlines lineBreak lines ++ stop ++ after :=
            (atStart.isInfix.trans (List.suffix_append _ _).isInfix).trans
              (List.prefix_append _ _).isInfix
          cases later : Search.find pattern (unlines lineBreak lines ++ stop ++ after) with
          | none => exact absurd occurs (Search.find_eq_none_iff.mp later)
          | some position =>
              rw [later] at step
              simp only [upTo, later] at rest
              have before : (line ++ lineBreak :: (unlines lineBreak lines ++ stop ++ after)).take
                  (position + (line.length + 1)) = line ++ lineBreak ::
                    (unlines lineBreak lines ++ stop ++ after).take position := by
                rw [List.append_cons, List.take_append, List.take_of_length_le (by simp)]
                simp
              simp only [upTo, step, Option.map_some, before, List.forall_mem_cons, absent,
                not_false_eq_true, true_and, wholeLines_line, unlines_cons]
              rcases rest with ⟨clear, same⟩ | ⟨⟨other, member, inside⟩, cut⟩
              · exact .inl ⟨clear, by rw [same]⟩
              · exact .inr ⟨⟨other, List.mem_cons_of_mem _ member, inside⟩, cut⟩

end Lines

end MergeBot.Foundation
