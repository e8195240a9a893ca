import MergeBot.Conflict.Scanner

/-!
# The scanner and the end of its buffer

The buffer is loaded without a terminator, so every read has to stay inside it.
The outer loop tests `Pos < End`, the inner one `Pos != End` after it has
stepped over a line end: `constructConflictFile_inside_iff` says exactly which
contents the scanner leaves. The loops always end: more fuel changes nothing,
`findBlockEnd_fuel` and `findBlocks_fuel`.
-/

namespace MergeBot

open Foundation

theorem findLineBreak_le {buffer : Text} {position lineBreak : Nat}
    (found : findLineBreak buffer position = some lineBreak) : position ≤ lineBreak := by
  rw [findLineBreak] at found
  split at found
  · obtain rfl := Option.some.inj found
    exact Nat.le_add_right _ _
  · simp at found

theorem findLineBreak_outside {buffer : Text} {position : Nat}
    (outside : buffer.length < position) : findLineBreak buffer position = none :=
  if_neg (Nat.not_le_of_lt outside)

/-- The inner loop ends after as many turns as there are positions left. -/
theorem findBlockEnd_fuel {buffer : Text} {position fuel more : Nat}
    (enough : buffer.length + 2 ≤ position + fuel) (le : fuel ≤ more) (lineStart : Nat) :
    findBlockEnd buffer more position lineStart = findBlockEnd buffer fuel position lineStart := by
  induction fuel generalizing position more lineStart with
  | zero =>
      cases more with
      | zero => rfl
      | succ more =>
          show findBlockEnd buffer (more + 1) position lineStart = none
          rw [findBlockEnd, if_neg (by omega), findLineBreak_outside (by omega)]
          rfl
  | succ fuel ih =>
      obtain ⟨more, rfl⟩ : ∃ less, more = less + 1 := ⟨more - 1, by omega⟩
      rw [findBlockEnd, findBlockEnd]
      by_cases ended : position = buffer.length
      · rw [if_pos ended, if_pos ended]
      · rw [if_neg ended, if_neg ended]
        cases found : findLineBreak buffer position with
        | none => rfl
        | some lineBreak =>
            have forward := findLineBreak_le found
            have remaining : buffer.length + 2 ≤ lineBreak + 1 + fuel := by omega
            have later (start : Nat) := ih remaining (Nat.le_of_succ_le_succ le) start
            simp only [Option.bind_eq_bind, Option.bind_some, later]

/-- The inner loop moves forward. -/
theorem findBlockEnd_le {buffer : Text} {fuel position lineStart stop : Nat}
    (found : findBlockEnd buffer fuel position lineStart = some (some stop)) : position ≤ stop := by
  induction fuel generalizing position lineStart with
  | zero => simp [findBlockEnd] at found
  | succ fuel ih =>
      rw [findBlockEnd] at found
      by_cases ended : position = buffer.length
      · simp [ended] at found
      · rw [if_neg ended] at found
        obtain ⟨lineBreak, atBreak, rest⟩ := Option.bind_eq_some_iff.mp found
        have forward := findLineBreak_le atBreak
        simp only at rest
        split at rest
        · have later := ih rest
          omega
        · split at rest
          · obtain rfl : lineBreak = stop := by simpa using rest
            exact forward
          · have later := ih rest
            omega

/-- The outer loop ends after as many turns as there are positions left. -/
theorem findBlocks_fuel {buffer : Text} {position fuel more : Nat}
    (enough : buffer.length < position + fuel) (positive : 0 < fuel) (le : fuel ≤ more)
    (lineStart index : Nat) :
    findBlocks buffer more position lineStart index =
      findBlocks buffer fuel position lineStart index := by
  induction fuel generalizing position more lineStart index with
  | zero => omega
  | succ fuel ih =>
      obtain ⟨more, rfl⟩ : ∃ less, more = less + 1 := ⟨more - 1, by omega⟩
      rw [findBlocks, findBlocks]
      by_cases unfinished : position < buffer.length
      · rw [if_pos unfinished, if_pos unfinished]
        have later {next : Nat} (forward : position < next) (start index : Nat) :
            findBlocks buffer more next start index = findBlocks buffer fuel next start index :=
          ih (by omega) (by omega) (Nat.le_of_succ_le_succ le) start index
        cases atBreak : findLineBreak buffer position with
        | none => rfl
        | some lineBreak =>
            have forward := findLineBreak_le atBreak
            simp only [Option.bind_eq_bind, Option.bind_some,
              later (show position < lineBreak + 1 by omega),
              later (show position < buffer.length + 1 by omega)]
            split
            · rfl
            · split
              · cases inner : findBlockEnd buffer (buffer.length + 2) lineBreak lineStart with
                | none => rfl
                | some found =>
                    cases found with
                    | none => rfl
                    | some stop =>
                        have behind := findBlockEnd_le inner
                        simp only [Option.bind_some, later (show position < stop + 1 by omega)]
              · rfl
      · rw [if_neg unfinished, if_neg unfinished]

/-- The complete lines of a buffer. -/
def completeLines (buffer : Text) : List Text := (splitLines '\n' buffer).1

/-- What follows the last line break. -/
def unterminatedLine (buffer : Text) : Text := (splitLines '\n' buffer).2

/-- The scanner stays in its buffer, if and only if the last line has its line
break or every start marker line before it has an end marker line behind it. -/
theorem constructConflictFile_inside_iff (buffer : Text) :
    (constructConflictFile buffer).isSome ↔
      unterminatedLine buffer = [] ∨ ¬ Unclosed (completeLines buffer) := by
  obtain ⟨single, noBreak⟩ := splitLines_single '\n' buffer
  have text : unlines '\n' (completeLines buffer) ++ unterminatedLine buffer = buffer :=
    splitLines_text '\n' buffer
  have spans := constructConflictSpans_lines single noBreak
  rw [← completeLines, ← unterminatedLine, text] at spans
  rw [constructConflictFile_eq_blocksAt, spans, Option.isSome_map]
  by_cases outside : unterminatedLine buffer ≠ [] ∧ Unclosed (completeLines buffer)
  · rw [if_pos outside]
    simp [outside]
  · rw [if_neg outside]
    simp only [Option.isSome_some, true_iff]
    tauto

/-- A block that is cut off in the middle of a line makes the scanner read behind
the buffer. -/
theorem truncatedBlock_outside :
    constructConflictFile "<<<<<<< HEAD\nx".toList = none := by
  decide

end MergeBot
