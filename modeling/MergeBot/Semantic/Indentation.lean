import Mathlib.Data.List.Forall2
import MergeBot.Conflict.Scanner

/-!
# Indentation of printed code

`indentCodeLines` brings the lines of a text to an indentation. `indentCodeLines_spec`: it
puts spaces in front of lines and changes nothing else, not even that in a line with a
conflict marker, and bringing lines to their indentation again changes nothing.
-/

namespace MergeBot

open Foundation

/-- The position of the first character that is neither a space nor a tab, or the length. -/
def firstCharPos (line : Text) : Nat :=
  (line.findIdx? fun c => c ∉ [' ', '\t']).getD line.length

def findsConflictMark (line : Text) : Bool :=
  [ConflictMark.ours, .base, .theirs, .end_].any fun mark => (Search.find mark.text line).isSome

def indentLine (indent collapseSpaceCnt : Nat) (line : Text) : Text :=
  if findsConflictMark line then line
  else if firstCharPos line < indent then
    -- the subtraction stops at zero, as the code sets a negative count to zero
    List.replicate (indent - firstCharPos line - collapseSpaceCnt) ' ' ++ line
  else line

def indentCodeLines (str : Text) (indent collapseSpaceCnt : Nat) : Text :=
  let indentedLines := (getlines '\n' str).map (indentLine indent collapseSpaceCnt)
  let indentedStr := unlines '\n' indentedLines
  if indentedStr ≠ [] ∧ str.getLast? ≠ some '\n' then indentedStr.dropLast else indentedStr

/-! ## One line -/

theorem findsConflictMark_iff (line : Text) :
    findsConflictMark line = true ↔ ∃ mark : ConflictMark, mark.text <:+: line := by
  have search (mark : ConflictMark) :
      (Search.find mark.text line).isSome = true ↔ mark.text <:+: line := by
    rw [Option.isSome_iff_ne_none, ne_eq, Search.find_eq_none_iff, not_not]
  simp only [findsConflictMark, List.any_cons, List.any_nil, Bool.or_false, Bool.or_eq_true,
    search]
  constructor
  · rintro (ours | base | theirs | end_)
    exacts [⟨_, ours⟩, ⟨_, base⟩, ⟨_, theirs⟩, ⟨_, end_⟩]
  · rintro ⟨mark, inside⟩
    cases mark <;> simp [inside]

/-- Spaces in front of a line are no part of a marker. -/
theorem infix_spaces_iff (mark : ConflictMark) (count : Nat) (line : Text) :
    mark.text <:+: List.replicate count ' ' ++ line ↔ mark.text <:+: line := by
  induction count with
  | zero => rfl
  | succ count inductionHypothesis =>
      rw [List.replicate_succ, List.cons_append, List.infix_cons_iff, inductionHypothesis]
      refine or_iff_right fun here => ?_
      have first : mark.text.head? = some ' ' := by
        obtain ⟨rest, same⟩ := here
        have head := congrArg List.head? same
        rwa [List.head?_append_of_ne_nil _ mark.text_ne_nil] at head
      cases mark <;> exact absurd first (by decide)

/-- Spaces in front of a line move its first character. -/
theorem firstCharPos_spaces (count : Nat) (line : Text) :
    firstCharPos (List.replicate count ' ' ++ line) = count + firstCharPos line := by
  induction count with
  | zero => simp
  | succ count inductionHypothesis =>
      rw [List.replicate_succ, List.cons_append, firstCharPos, List.findIdx?_cons,
        if_neg (by simp), Nat.succ_add, ← inductionHypothesis, firstCharPos]
      cases (List.replicate count ' ' ++ line).findIdx? fun c => c ∉ [' ', '\t'] <;> simp

variable (indent collapseSpaceCnt : Nat)

/-- A line with spaces in front of it, or a line with a marker as it was. -/
def Indented (line indented : Text) : Prop :=
  (∃ count, indented = List.replicate count ' ' ++ line) ∧
    ((∃ mark : ConflictMark, mark.text <:+: line) → indented = line)

theorem indented_indentLine (line : Text) :
    Indented line (indentLine indent collapseSpaceCnt line) := by
  rw [indentLine]
  split
  · exact ⟨⟨0, rfl⟩, fun _ => rfl⟩
  · rename_i unmarked
    rw [findsConflictMark_iff] at unmarked
    refine ⟨?_, fun marked => (unmarked marked).elim⟩
    split
    · exact ⟨_, rfl⟩
    · exact ⟨0, rfl⟩

/-- A line that has its indentation keeps it. -/
theorem indentLine_indentLine (line : Text) :
    indentLine indent 0 (indentLine indent 0 line) = indentLine indent 0 line := by
  obtain ⟨⟨count, spaces⟩, -⟩ := indented_indentLine indent 0 line
  have marks : findsConflictMark (indentLine indent 0 line) = findsConflictMark line := by
    rw [Bool.eq_iff_iff, findsConflictMark_iff, findsConflictMark_iff, spaces]
    simp only [infix_spaces_iff]
  by_cases marked : findsConflictMark line = true
  · rw [indentLine, if_pos (marks.trans marked)]
  · have reached : indent ≤ firstCharPos (indentLine indent 0 line) := by
      rw [indentLine, if_neg marked]
      split
      · rw [firstCharPos_spaces]
        omega
      · omega
    rw [indentLine, if_neg (by rwa [marks]), if_neg (by omega)]

/-- A line stays a line. -/
theorem single_indentLine {line : Text} (single : '\n' ∉ line) :
    '\n' ∉ indentLine indent collapseSpaceCnt line := by
  obtain ⟨⟨count, spaces⟩, -⟩ := indented_indentLine indent collapseSpaceCnt line
  rw [spaces]
  simp [single]

/-! ## All lines -/

/-- The text behind the last line break is a line unless it is empty. -/
def indentLast (last : Text) : Text :=
  if last = [] then [] else indentLine indent collapseSpaceCnt last

theorem indented_indentLast (last : Text) :
    Indented last (indentLast indent collapseSpaceCnt last) := by
  rw [indentLast]
  split
  · rename_i empty
    exact empty ▸ ⟨⟨0, rfl⟩, fun _ => rfl⟩
  · exact indented_indentLine indent collapseSpaceCnt last

@[simp]
theorem indentLast_eq_nil_iff {last : Text} :
    indentLast indent collapseSpaceCnt last = [] ↔ last = [] := by
  refine ⟨fun empty => ?_, fun empty => if_pos empty⟩
  obtain ⟨⟨count, spaces⟩, -⟩ := indented_indentLast indent collapseSpaceCnt last
  exact (List.append_eq_nil_iff.mp (spaces.symm.trans empty)).2

theorem indentLast_indentLast (last : Text) :
    indentLast indent 0 (indentLast indent 0 last) = indentLast indent 0 last := by
  by_cases empty : last = []
  · rw [(indentLast_eq_nil_iff indent 0).mpr empty]
    rfl
  · have still : indentLast indent 0 last ≠ [] := fun none_ =>
      empty ((indentLast_eq_nil_iff indent 0).mp none_)
    rw [indentLast, if_neg still, indentLast, if_neg empty, indentLine_indentLine]

/-- The indented lines, joined as the text was. -/
theorem indentCodeLines_unlines (lines : List Text) {last : Text}
    (single : ∀ line ∈ lines, '\n' ∉ line) (lastSingle : '\n' ∉ last) :
    indentCodeLines (unlines '\n' lines ++ last) indent collapseSpaceCnt =
      unlines '\n' (lines.map (indentLine indent collapseSpaceCnt)) ++
        indentLast indent collapseSpaceCnt last := by
  simp only [indentCodeLines, getlines, splitLines_unlines single lastSingle, ne_eq,
    getLast?_unlines_iff lines lastSingle]
  by_cases empty : last = []
  · have whole : ¬ (¬ unlines '\n' (lines.map (indentLine indent collapseSpaceCnt)) = [] ∧
        ¬ (¬ lines = [] ∧ last = [])) := by
      rintro ⟨some_, noBreak⟩
      refine noBreak ⟨fun none_ => some_ ?_, empty⟩
      rw [none_, List.map_nil, unlines_nil]
    rw [if_pos empty, List.append_nil, if_neg whole, indentLast, if_pos empty, List.append_nil]
  · rw [if_neg empty, List.map_append, List.map_singleton, unlines_append, unlines_cons,
      unlines_nil, if_pos ⟨by simp, fun both => empty both.2⟩, ← List.append_assoc,
      List.dropLast_concat, indentLast, if_neg empty]

/-- Indenting adds spaces in front of lines without a conflict marker, keeps the last line break,
and does nothing a second time. -/
theorem indentCodeLines_spec (str : Text) :
    List.Forall₂ Indented (str.splitOn '\n')
        ((indentCodeLines str indent collapseSpaceCnt).splitOn '\n') ∧
      ((indentCodeLines str indent collapseSpaceCnt).getLast? = some '\n' ↔
        str.getLast? = some '\n') ∧
      indentCodeLines (indentCodeLines str indent 0) indent 0 = indentCodeLines str indent 0 := by
  obtain ⟨single, lastSingle⟩ := splitLines_single '\n' str
  rw [← splitLines_text '\n' str]
  generalize (splitLines '\n' str).1 = lines at single ⊢
  generalize (splitLines '\n' str).2 = last at lastSingle ⊢
  have mapSingle (collapse : Nat) :
      ∀ line ∈ lines.map (indentLine indent collapse), '\n' ∉ line :=
    List.forall_mem_map.mpr fun line member =>
      single_indentLine indent collapse (single line member)
  have lastIndented (collapse : Nat) : '\n' ∉ indentLast indent collapse last := by
    obtain ⟨⟨count, spaces⟩, -⟩ := indented_indentLast indent collapse last
    rw [spaces]
    simp [lastSingle]
  have joined (collapse : Nat) := indentCodeLines_unlines indent collapse lines single lastSingle
  refine ⟨?_, ?_, ?_⟩
  · rw [joined, splitOn_unlines single lastSingle,
      splitOn_unlines (mapSingle _) (lastIndented _)]
    refine List.rel_append ?_ (.cons (indented_indentLast _ _ _) .nil)
    rw [List.forall₂_map_right_iff]
    exact List.forall₂_same.mpr fun line _ => indented_indentLine _ _ line
  · rw [joined, getLast?_unlines_iff _ (lastIndented _), getLast?_unlines_iff _ lastSingle,
      indentLast_eq_nil_iff, ne_eq, List.map_eq_nil_iff]
  · rw [joined, indentCodeLines_unlines _ _ _ (mapSingle 0) (lastIndented 0), List.map_map,
      indentLast_indentLast]
    have again : ∀ line ∈ lines, (indentLine indent 0 ∘ indentLine indent 0) line =
        indentLine indent 0 line := fun line _ => indentLine_indentLine indent line
    rw [List.map_congr_left again]

end MergeBot
