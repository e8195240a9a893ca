import MergeBot.Conflict.Scanner

/-!
# Conflict blocks in the server and in the editor

The server numbers the blocks that `constructConflictFile` finds, the editor
those that `findConflictBlocks` finds on the same lines. The server looks at
start and end markers only; the editor also waits for a separator and takes the
last start marker. `numberedAlike_iff` says on which files they agree.
-/

namespace MergeBot

open Foundation

/-- The line numbers of a conflict block's markers, counted from one; `-1` for a
marker that has not been seen. -/
structure MarkerLineNos where
  ourMarkerLineNo : Int := -1
  baseMarkerLineNo : Int := -1
  theirMarkerLineNo : Int := -1
  endMarkerLineNo : Int := -1
deriving DecidableEq, Repr

/-- The editor's loop, from the line with index `i` on. -/
def findConflictBlocksFrom : MarkerLineNos → Nat → List Text → List MarkerLineNos
  | _, _, [] => []
  | markers, i, line :: rest =>
      if ConflictMark.ours.Begins line then
        findConflictBlocksFrom { markers with ourMarkerLineNo := i + 1 } (i + 1) rest
      else if ConflictMark.base.Begins line ∧ markers.ourMarkerLineNo > 0 then
        findConflictBlocksFrom { markers with baseMarkerLineNo := i + 1 } (i + 1) rest
      else if ConflictMark.theirs.Begins line ∧ markers.ourMarkerLineNo > 0 then
        findConflictBlocksFrom { markers with theirMarkerLineNo := i + 1 } (i + 1) rest
      else if ConflictMark.end_.Begins line ∧ markers.theirMarkerLineNo > 0 then
        { markers with endMarkerLineNo := i + 1 } :: findConflictBlocksFrom {} (i + 1) rest
      else findConflictBlocksFrom markers (i + 1) rest

/-- The blocks that the editor shows. -/
def findConflictBlocks (content : List Text) : List MarkerLineNos :=
  findConflictBlocksFrom {} 0 content

/-- First and last line of the editor's blocks. -/
def editorBlockLines (content : List Text) : List (Int × Int) :=
  (findConflictBlocks content).map fun block => (block.ourMarkerLineNo, block.endMarkerLineNo)

/-- The line in which a character of a buffer stands, counted from one. -/
def lineNo (buffer : Text) (position : Nat) : Nat :=
  (buffer.take position).count '\n' + 1

/-- First and last line of a text from `start` up to `stop`. -/
def spanLines (buffer : Text) : Nat × Nat → Int × Int
  | (start, stop) => (lineNo buffer start, lineNo buffer (stop - 1))

/-- First and last line of the server's blocks. -/
def serverBlockLines (buffer : Text) : Option (List (Int × Int)) :=
  (constructConflictSpans buffer).map (List.map (spanLines buffer))

/-- Server and editor number the conflict blocks of a file alike. -/
def NumberedAlike (lines : List Text) : Prop :=
  serverBlockLines (unlines '\n' lines) = some (editorBlockLines lines)

/-- Between a start marker line and the next end marker line behind it there are
a separator and no other start marker line. -/
def Separated (lines : List Text) : Prop :=
  ∀ before start body stop after, lines = before ++ start :: (body ++ stop :: after) →
    ConflictMark.ours.Begins start → ConflictMark.end_.Begins stop →
    (∀ line ∈ body, ¬ ConflictMark.end_.Begins line) →
      (∃ line ∈ body, ConflictMark.theirs.Begins line) ∧
        ∀ line ∈ body, ¬ ConflictMark.ours.Begins line

/-! ## The server's blocks by lines -/

/-- First and last line of a block, from the index of its first line and the one
behind its last. -/
def indexLines : Nat × Nat → Int × Int
  | (start, stop) => (start + 1, stop)

/-- Lines of size one are counted. -/
theorem totalSize_one (lines : List Text) : totalSize (fun _ => 1) lines = lines.length := by
  induction lines with
  | nil => rfl
  | cons line rest ih => rw [totalSize, ih, List.length_cons, Nat.add_comm]

/-- The spans of characters are spans of lines. -/
theorem spanLines_scanSpans {lines : List Text} (single : ∀ line ∈ lines, '\n' ∉ line)
    (before : Text) (opened : Option Nat) :
    let buffer := before ++ unlines '\n' lines
    (scanSpans lineSize opened before.length lines).map (spanLines buffer) =
      (scanSpans (fun _ => 1) (opened.map fun start => (buffer.take start).count '\n')
        (before.count '\n') lines).map indexLines := by
  induction lines generalizing before opened with
  | nil => cases opened <;> rfl
  | cons line rest ih =>
      intro buffer
      have whole : before ++ line ++ ['\n'] ++ unlines '\n' rest = buffer := by simp [buffer]
      have length : (before ++ line ++ ['\n']).length = before.length + lineSize line := by
        simp [lineSize]
      have noBreak : line.count '\n' = 0 := List.count_eq_zero.mpr (single line List.mem_cons_self)
      have count : (before ++ line ++ ['\n']).count '\n' = before.count '\n' + 1 := by
        simp [noBreak]
      have later (opened : Option Nat) := ih
        (fun other member => single other (List.mem_cons_of_mem _ member))
        (before ++ line ++ ['\n']) opened
      simp only [whole, length, count] at later
      have atStart : (buffer.take before.length).count '\n' = before.count '\n' := by
        simp [buffer]
      cases opened with
      | none =>
          by_cases starts : ConflictMark.ours.Begins line
          · have inside := later (some before.length)
            rw [Option.map_some, atStart] at inside
            simpa [scanSpans, starts] using inside
          · simpa [scanSpans, starts] using later none
      | some start =>
          by_cases ends : ConflictMark.end_.Begins line
          · have upTo : buffer.take (before.length + line.length) = before ++ line := by
              rw [← List.length_append, ← whole, List.append_assoc, List.take_left]
            have lastLine : (buffer.take (before.length + lineSize line - 1)).count '\n' =
                before.count '\n' := by
              rw [lineSize, ← Nat.add_assoc, Nat.add_sub_cancel, upTo, List.count_append, noBreak,
                Nat.add_zero]
            have behind := later none
            simp only [Option.map_none] at behind
            simp [scanSpans, ends, behind, spanLines, indexLines, lineNo, lastLine]
          · simpa [scanSpans, ends] using later (some start)

/-- The lines of the server's blocks come from an automaton over lines. -/
theorem serverBlockLines_unlines {lines : List Text} (single : ∀ line ∈ lines, '\n' ∉ line) :
    serverBlockLines (unlines '\n' lines) =
      some ((scanSpans (fun _ => 1) none 0 lines).map indexLines) := by
  have spans := spanLines_scanSpans single [] none
  simp only [List.nil_append, List.length_nil, Option.map_none, List.count_nil] at spans
  rw [serverBlockLines, constructConflictSpans_unlines single, Option.map_some, spans]

/-! ## The editor's blocks -/

/-- What the editor has seen of an open block: its last start marker line is line
`start`, at or before line `i`, and there was a separator or there was none. -/
structure Opened (markers : MarkerLineNos) (start i : Nat) (separator : Prop) : Prop where
  ours : markers.ourMarkerLineNo = start
  positive : 0 < start
  bounded : start ≤ i
  separated : markers.theirMarkerLineNo > 0 ↔ separator

/-- A line without an end marker only updates the markers. The last start marker
line stays the same, unless this is another one. -/
theorem findConflictBlocksFrom_line {line : Text} (clear : ¬ ConflictMark.end_.Begins line)
    {markers : MarkerLineNos} {start i : Nat} {separator : Prop}
    (opened : Opened markers start i separator) (rest : List Text) :
    ∃ markers' start', findConflictBlocksFrom markers i (line :: rest) =
        findConflictBlocksFrom markers' (i + 1) rest ∧
      Opened markers' start' (i + 1) (separator ∨ ConflictMark.theirs.Begins line) ∧
      start ≤ start' ∧ (start' = start ↔ ¬ ConflictMark.ours.Begins line) := by
  obtain ⟨ours, positive, bounded, separated⟩ := opened
  have seen : markers.ourMarkerLineNo > 0 := by omega
  rw [findConflictBlocksFrom]
  by_cases starts : ConflictMark.ours.Begins line
  · have notTheirs : ¬ ConflictMark.theirs.Begins line := starts.not_other (by decide)
    rw [if_pos starts]
    refine ⟨_, i + 1, rfl, ⟨by simp, by omega, by omega, ?_⟩, by omega, ?_⟩
    · simpa [notTheirs] using separated
    · simp only [starts, not_true_eq_false, iff_false]
      omega
  · rw [if_neg starts]
    by_cases isBase : ConflictMark.base.Begins line
    · have notTheirs : ¬ ConflictMark.theirs.Begins line := isBase.not_other (by decide)
      rw [if_pos ⟨isBase, seen⟩]
      refine ⟨_, start, rfl, ⟨ours, positive, by omega, ?_⟩, Nat.le_refl _, by simp [starts]⟩
      simpa [notTheirs] using separated
    · rw [if_neg fun both => isBase both.1]
      by_cases isTheirs : ConflictMark.theirs.Begins line
      · rw [if_pos ⟨isTheirs, seen⟩]
        refine ⟨_, start, rfl, ⟨ours, positive, by omega, ?_⟩, Nat.le_refl _, by simp [starts]⟩
        simp only [isTheirs, or_true, iff_true]
        omega
      · rw [if_neg fun both => isTheirs both.1, if_neg fun both => clear both.1]
        refine ⟨_, start, rfl, ⟨ours, positive, by omega, ?_⟩, Nat.le_refl _, by simp [starts]⟩
        simpa [isTheirs] using separated

/-- Without an end marker line the editor's loop only updates the markers, line
by line. -/
theorem findConflictBlocksFrom_body {body : List Text}
    (clear : ∀ line ∈ body, ¬ ConflictMark.end_.Begins line) {markers : MarkerLineNos}
    {start i : Nat} {separator : Prop} (opened : Opened markers start i separator)
    (rest : List Text) :
    ∃ markers' start', findConflictBlocksFrom markers i (body ++ rest) =
        findConflictBlocksFrom markers' (i + body.length) rest ∧
      Opened markers' start' (i + body.length)
        (separator ∨ ∃ line ∈ body, ConflictMark.theirs.Begins line) ∧
      start ≤ start' ∧ (start' = start ↔ ∀ line ∈ body, ¬ ConflictMark.ours.Begins line) := by
  induction body generalizing markers start i separator with
  | nil => exact ⟨markers, start, rfl, by simpa using opened, Nat.le_refl _, by simp⟩
  | cons line body ih =>
      obtain ⟨next, nextStart, turn, nextOpened, le, same⟩ :=
        findConflictBlocksFrom_line (clear line List.mem_cons_self) opened (body ++ rest)
      obtain ⟨last, lastStart, turns, lastOpened, leLast, sameLast⟩ :=
        ih (fun other member => clear other (List.mem_cons_of_mem _ member)) nextOpened
      have length : i + 1 + body.length = i + (line :: body).length := by
        rw [List.length_cons]
        omega
      rw [length] at turns lastOpened
      refine ⟨last, lastStart, turn.trans turns, ?_, le.trans leLast, ?_⟩
      · simpa [or_assoc] using lastOpened
      · rw [List.forall_mem_cons, ← same, ← sameLast]
        omega

/-- Blocks end behind the lines that have been read before. -/
theorem end_of_mem_findConflictBlocksFrom {lines : List Text} {markers block : MarkerLineNos}
    {i : Nat} (member : block ∈ findConflictBlocksFrom markers i lines) :
    (i : Int) < block.endMarkerLineNo := by
  induction lines generalizing markers i with
  | nil => simp [findConflictBlocksFrom] at member
  | cons line rest ih =>
      have later {markers : MarkerLineNos}
          (member : block ∈ findConflictBlocksFrom markers (i + 1) rest) :
          (i : Int) < block.endMarkerLineNo := by
        have bound := ih member
        omega
      rw [findConflictBlocksFrom] at member
      split at member
      · exact later member
      · split at member
        · exact later member
        · split at member
          · exact later member
          · split at member
            · rcases List.mem_cons.mp member with rfl | member
              · exact Int.lt_succ _
              · exact later member
            · exact later member

/-- Without an end marker line the editor shows no block. -/
theorem findConflictBlocksFrom_clear {lines : List Text}
    (clear : ∀ line ∈ lines, ¬ ConflictMark.end_.Begins line) (markers : MarkerLineNos) (i : Nat) :
    findConflictBlocksFrom markers i lines = [] := by
  induction lines generalizing markers i with
  | nil => rfl
  | cons line rest ih =>
      have later := ih fun other member => clear other (List.mem_cons_of_mem _ member)
      have notEnd := clear line List.mem_cons_self
      simp only [findConflictBlocksFrom, later, notEnd, false_and, if_false, ite_self]

/-! ## Agreement -/

/-- Nothing is between markers in lines without an end marker line. -/
theorem separated_of_clear {lines : List Text}
    (clear : ∀ line ∈ lines, ¬ ConflictMark.end_.Begins line) : Separated lines := by
  rintro before start body stop after rfl - ends -
  exact absurd ends (clear stop (by simp))

/-- A line that is no start marker line plays no role in front. -/
theorem separated_cons_iff {line : Text} (plain : ¬ ConflictMark.ours.Begins line)
    (rest : List Text) : Separated (line :: rest) ↔ Separated rest := by
  constructor
  · rintro separated before start body stop after rfl
    exact separated (line :: before) start body stop after rfl
  · intro separated before start body stop after split starts
    cases before with
    | nil => exact absurd ((List.cons.inj split).1 ▸ starts) plain
    | cons head before =>
        exact separated before start body stop after (List.cons.inj split).2 starts

/-- Around a first block the condition is one on the block and on what follows. -/
theorem separated_block_iff {start stop : Text} {body : List Text}
    (starts : ConflictMark.ours.Begins start) (ends : ConflictMark.end_.Begins stop)
    (clear : ∀ line ∈ body, ¬ ConflictMark.end_.Begins line) (after : List Text) :
    Separated (start :: (body ++ stop :: after)) ↔
      ((∃ line ∈ body, ConflictMark.theirs.Begins line) ∧
        ∀ line ∈ body, ¬ ConflictMark.ours.Begins line) ∧ Separated after := by
  constructor
  · intro separated
    refine ⟨separated [] start body stop after rfl starts ends clear, ?_⟩
    rintro before other inner last later rfl
    exact separated (start :: (body ++ stop :: before)) other inner last later (by simp)
  · rintro ⟨⟨separator, single⟩, separated⟩ before other inner last later split otherStarts lastEnds
      innerClear
    cases before with
    | nil =>
        -- the first end marker line behind the same start marker line
        have firsts := splitBlock_body clear ends after
        rw [(List.cons.inj split).2, splitBlock_body innerClear lastEnds later] at firsts
        have same : inner ++ [last] = body ++ [stop] := congrArg Prod.fst (Option.some.inj firsts)
        obtain rfl : inner = body := (List.append_inj' same rfl).1
        exact ⟨separator, single⟩
    | cons head before =>
        have tails : body ++ stop :: after = before ++ other :: (inner ++ last :: later) :=
          (List.cons.inj split).2
        have notStart : ¬ ConflictMark.ours.Begins stop := ends.not_other (by decide)
        rcases List.append_eq_append_iff.mp tails with ⟨gap, shape, behind⟩ | ⟨gap, shape, behind⟩
        · cases gap with
          | nil => exact absurd ((List.cons.inj behind).1 ▸ otherStarts) notStart
          | cons first gap =>
              exact separated gap other inner last later (List.cons.inj behind).2 otherStarts
                lastEnds innerClear
        · cases gap with
          | nil => exact absurd ((List.cons.inj behind).1 ▸ otherStarts) notStart
          | cons first gap =>
              have inBody : first ∈ body := by simp [shape]
              exact absurd ((List.cons.inj behind).1 ▸ otherStarts) (single first inBody)

/-- Line by line, the two automata find the same blocks if and only if the blocks
are separated. -/
theorem scanSpans_eq_findConflictBlocksFrom_iff (lines : List Text) (i : Nat) :
    (scanSpans (fun _ => 1) none i lines).map indexLines =
        (findConflictBlocksFrom {} i lines).map
          (fun block => (block.ourMarkerLineNo, block.endMarkerLineNo)) ↔
      Separated lines := by
  induction length : lines.length using Nat.strongRecOn generalizing lines i with
  | ind size ih =>
  subst length
  cases lines with
  | nil => simp [scanSpans, findConflictBlocksFrom, separated_of_clear]
  | cons line rest =>
      by_cases starts : ConflictMark.ours.Begins line
      · rcases first_or_none (p := fun line => ConflictMark.end_.Begins line) rest with
          clear | ⟨body, stop, after, rfl, ends, clear⟩
        · -- the block stays open in both
          have noEnd : ¬ ConflictMark.end_.Begins line := starts.not_other (by decide)
          have allClear : ∀ other ∈ line :: rest, ¬ ConflictMark.end_.Begins other := by
            simpa [noEnd] using clear
          rw [findConflictBlocksFrom_clear allClear, scanSpans, if_pos starts, scanSpans_open,
            splitBlock_eq_none_iff.mpr clear]
          simp [separated_of_clear allClear]
        · have opened : Opened { ourMarkerLineNo := (i : Int) + 1 } (i + 1) (i + 1) False :=
            ⟨by simp, by omega, Nat.le_refl _, by simp⟩
          obtain ⟨markers, last, turns, ⟨ours, -, -, separated⟩, -, same⟩ :=
            findConflictBlocksFrom_body clear opened (stop :: after)
          rw [false_or] at separated
          have server : scanSpans (fun _ => 1) none i (line :: (body ++ stop :: after)) =
              (i, i + 1 + body.length + 1) ::
                scanSpans (fun _ => 1) none (i + 1 + body.length + 1) after := by
            rw [scanSpans, if_pos starts, scanSpans_open, splitBlock_body clear ends]
            simp [totalSize_one, Nat.add_assoc]
          have editor : findConflictBlocksFrom {} i (line :: (body ++ stop :: after)) =
              if markers.theirMarkerLineNo > 0 then
                { markers with endMarkerLineNo := (i + 1 + body.length : Nat) + 1 } ::
                  findConflictBlocksFrom {} (i + 1 + body.length + 1) after
              else findConflictBlocksFrom markers (i + 1 + body.length + 1) after := by
            rw [findConflictBlocksFrom, if_pos starts, turns, findConflictBlocksFrom]
            simp [ends.not_other (show ConflictMark.ours ≠ .end_ by decide),
              ends.not_other (show ConflictMark.base ≠ .end_ by decide),
              ends.not_other (show ConflictMark.theirs ≠ .end_ by decide), ends]
          have behind := ih after.length (by simp; omega) after (i + 1 + body.length + 1) rfl
          rw [separated_block_iff starts ends clear, server, editor, ← behind, ← same]
          by_cases separator : ∃ line ∈ body, ConflictMark.theirs.Begins line
          · rw [if_pos (separated.mpr separator)]
            simp only [List.map_cons, List.cons.injEq, indexLines, ours, separator, true_and]
            refine and_congr_left fun _ => ?_
            rw [Prod.mk.injEq]
            omega
          · -- the editor's next block ends behind the server's
            rw [if_neg (separated.not.mpr separator)]
            refine iff_of_false (fun agree => ?_) fun both => separator both.1.1
            have head : indexLines (i, i + 1 + body.length + 1) ∈
                (findConflictBlocksFrom markers (i + 1 + body.length + 1) after).map
                  fun block => (block.ourMarkerLineNo, block.endMarkerLineNo) := by
              rw [← agree]
              exact List.mem_cons_self
            obtain ⟨block, member, shown⟩ := List.mem_map.mp head
            have late := end_of_mem_findConflictBlocksFrom member
            have stopLine := congrArg Prod.snd shown
            simp only [indexLines] at stopLine
            omega
      · have behind := ih rest.length (by simp) rest (i + 1) rfl
        rw [separated_cons_iff starts, ← behind]
        simp [scanSpans, findConflictBlocksFrom, starts]

/-- Server and editor number the blocks of a file alike, if and only if between
each start marker line and the next end marker line there are a separator and no
other start marker line. -/
theorem numberedAlike_iff {lines : List Text} (single : ∀ line ∈ lines, '\n' ∉ line) :
    NumberedAlike lines ↔ Separated lines := by
  rw [NumberedAlike, serverBlockLines_unlines single, Option.some.injEq, editorBlockLines,
    findConflictBlocks, scanSpans_eq_findConflictBlocksFrom_iff]

/-- A block without a separator in front of a usual one. -/
def unseparatedLines : List Text :=
  ["<<<<<<<".toList, ">>>>>>>".toList, "<<<<<<<".toList, "=======".toList, ">>>>>>>".toList]

/-- The server counts both blocks and the editor only the second. -/
theorem unseparated_misnumbered : ¬ NumberedAlike unseparatedLines := by
  unfold NumberedAlike
  decide

/-- The equivalence for these lines. -/
theorem unseparated_numberedAlike_iff :
    NumberedAlike unseparatedLines ↔ Separated unseparatedLines :=
  numberedAlike_iff (by decide)

end MergeBot
