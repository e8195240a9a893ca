import Mathlib.Algebra.GroupWithZero.Nat
import MergeBot.Foundation.BoundedLines
import MergeBot.Conflict.Scanner

/-!
# Reading a range of lines

`compute_offsets` goes through a file in buffers and notes where lines begin;
`read_file_chunk` starts from there and calls `fgets` once for every line. A longer line takes
several calls, and behind a final line break there is a start without a line.
`readFileChunk_exact_iff` says when the chunk is exactly the range of lines.
-/

namespace MergeBot

open Foundation

/-- Both functions have a buffer of this many characters. -/
def chunkBufferSize : Nat := 4096

/-- The loop over the buffers that `fread` fills. -/
def computeOffsetsFrom : Nat → Nat → Text → List Nat
  | 0, _, _ => []
  | fuel + 1, offset, content =>
      let buffer := content.take chunkBufferSize
      if buffer.length > 0 then
        breaksFrom '\n' offset buffer ++
          computeOffsetsFrom fuel (offset + buffer.length) (content.drop chunkBufferSize)
      else []

/-- Where the lines of a file begin. -/
def computeOffsets (content : Text) : List Nat :=
  0 :: computeOffsetsFrom (content.length + 1) 0 content

/-- `fgets` with the rest of the file: what is in the buffer and what is left. At the end of
the file it fails. -/
def fgets (size : Nat) (rest : Text) : Option (Text × Text) :=
  if rest = [] then none else some (takeLine '\n' (size - 1) rest)

/-- The loop over the lines. The buffer is not initialised, and it keeps its content when `fgets`
fails. -/
def readLinesFrom (start lineCount : Nat) : Nat → Nat → Option Text → Text → Option Text
  | 0, _, _, _ => some []
  | remaining + 1, i, line, rest =>
      if start + i ≤ lineCount then
        match fgets chunkBufferSize rest with
        | some (line, rest) =>
            (readLinesFrom start lineCount remaining (i + 1) (some line) rest).map (line ++ ·)
        | none => line.bind fun line =>
            (readLinesFrom start lineCount remaining (i + 1) (some line) rest).map (line ++ ·)
      else some []

/-- The text of `offset` lines from line `start` on; `none` if it contains the content of an
uninitialised buffer. -/
def readFileChunk (content : Text) (start offset : Nat) (offsets : List Nat) : Option Text :=
  match offsets[start - 1]? with
  | some position =>
      readLinesFrom start offsets.length offset 0 none (content.drop position)
  | none => some []

/-- The lines of a range that exist. -/
def rangeLines (content : Text) (start count : Nat) : List Text :=
  ((endedLines '\n' content).drop (start - 1)).take count

/-- Number of calls of `fgets` that lines take. -/
def fgetsCalls (lines : List Text) : Nat :=
  (lines.map fun line => readsOf (chunkBufferSize - 1) line.length).sum

/-- The lines of the range take as many calls of `fgets` as there are line starts in it. -/
def OneCallForEachStart (content : Text) (start count : Nat) : Prop :=
  fgetsCalls (rangeLines content start count) = min count (content.count '\n' + 2 - start)

/-! ## Offsets -/

/-- Borders of buffers make no difference. -/
theorem computeOffsetsFrom_eq {fuel : Nat} {content : Text} (enough : content.length < fuel)
    (offset : Nat) : computeOffsetsFrom fuel offset content = breaksFrom '\n' offset content := by
  induction fuel generalizing content offset with
  | zero => omega
  | succ fuel inductionHypothesis =>
      rw [computeOffsetsFrom]
      cases content with
      | nil => rfl
      | cons c rest =>
          have shorter : ((c :: rest).drop chunkBufferSize).length < fuel := by
            rw [List.length_drop, List.length_cons] at *
            have positive : 0 < chunkBufferSize := by decide
            omega
          rw [inductionHypothesis shorter, ← breaksFrom_append, List.take_append_drop, if_pos]
          simp [chunkBufferSize]

/-- The offsets are the positions behind the line breaks. -/
theorem computeOffsets_eq (content : Text) :
    computeOffsets content = 0 :: breaksFrom '\n' 0 content := by
  rw [computeOffsets, computeOffsetsFrom_eq (Nat.lt_succ_self _)]

theorem length_computeOffsets (content : Text) :
    (computeOffsets content).length = content.count '\n' + 1 := by
  rw [computeOffsets_eq, List.length_cons, length_breaksFrom]

/-! ## The loop over the lines -/

/-- Some calls of `fgets` one after the other. -/
def readCalls : Nat → Option Text → Text → Option Text
  | 0, _, _ => some []
  | calls + 1, line, rest =>
      match fgets chunkBufferSize rest with
      | some (line, rest) => (readCalls calls (some line) rest).map (line ++ ·)
      | none => line.bind fun line => (readCalls calls (some line) rest).map (line ++ ·)

/-- The loop stops at the last line start. -/
theorem readLinesFrom_eq (start lineCount remaining i : Nat) (line : Option Text) (rest : Text) :
    readLinesFrom start lineCount remaining i line rest =
      readCalls (min remaining (lineCount + 1 - (start + i))) line rest := by
  induction remaining generalizing i line rest with
  | zero => simp [readLinesFrom, readCalls]
  | succ remaining inductionHypothesis =>
      rw [readLinesFrom]
      by_cases inside : start + i ≤ lineCount
      · have calls : min (remaining + 1) (lineCount + 1 - (start + i)) =
            min remaining (lineCount + 1 - (start + (i + 1))) + 1 := by omega
        simp only [if_pos inside, inductionHypothesis, calls, readCalls]
      · have calls : min (remaining + 1) (lineCount + 1 - (start + i)) = 0 := by omega
        rw [if_neg inside, calls, readCalls]

/-- A call of `fgets` in front of a line. -/
theorem readCalls_succ {line rest : Text} (stands : StandsBefore '\n' line rest) (calls : Nat)
    (buffer : Option Text) :
    readCalls (calls + 1) buffer (line ++ rest) =
      (readCalls calls (some (line.take (chunkBufferSize - 1)))
        (line.drop (chunkBufferSize - 1) ++ rest)).map (line.take (chunkBufferSize - 1) ++ ·) := by
  have nonempty : line ++ rest ≠ [] := List.append_ne_nil_of_left_ne_nil stands.ne_nil rest
  rw [readCalls, fgets, if_neg nonempty]
  by_cases fits : line.length ≤ chunkBufferSize - 1
  · rw [stands.takeLine_of_le fits, List.take_of_length_le fits, List.drop_of_length_le fits,
      List.nil_append]
  · rw [stands.takeLine_of_lt (Nat.lt_of_not_le fits)]

/-- A line takes its calls, and fewer calls read less than the line. -/
theorem readCalls_line {line rest : Text} (stands : StandsBefore '\n' line rest) (calls : Nat)
    (buffer : Option Text) :
    (readsOf (chunkBufferSize - 1) line.length ≤ calls ∧ ∃ last ≠ [],
      readCalls calls buffer (line ++ rest) =
        (readCalls (calls - readsOf (chunkBufferSize - 1) line.length) (some last) rest).map
          (line ++ ·)) ∨
    (calls < readsOf (chunkBufferSize - 1) line.length ∧
      ∃ text, readCalls calls buffer (line ++ rest) = some text ∧
        text.length < line.length) := by
  induction calls generalizing line buffer with
  | zero =>
      have nonempty : 0 < line.length := List.length_pos_iff.mpr stands.ne_nil
      exact .inr ⟨readsOf_pos (by decide) nonempty, [], rfl, nonempty⟩
  | succ calls inductionHypothesis =>
      have nonempty : 0 < line.length := List.length_pos_iff.mpr stands.ne_nil
      rw [readCalls_succ stands]
      by_cases fits : line.length ≤ chunkBufferSize - 1
      · rw [readsOf_of_le nonempty fits, List.take_of_length_le fits,
          List.drop_of_length_le fits, List.nil_append]
        exact .inl ⟨Nat.succ_pos calls, line, stands.ne_nil, rfl⟩
      · have long := Nat.lt_of_not_le fits
        have whole := List.take_append_drop (chunkBufferSize - 1) line
        rw [readsOf_of_lt (by decide) long]
        have later := inductionHypothesis (stands.drop long)
          (some (line.take (chunkBufferSize - 1)))
        rw [List.length_drop] at later
        rcases later with ⟨enough, last, lastNonempty, read⟩ | ⟨few, text, read, shorter⟩
        · refine .inl ⟨Nat.succ_le_succ enough, last, lastNonempty, ?_⟩
          rw [read, Option.map_map, Nat.add_sub_add_right]
          congr 1
          funext text
          rw [Function.comp_apply, ← List.append_assoc, whole]
        · refine .inr ⟨Nat.succ_lt_succ few, _, by rw [read, Option.map_some], ?_⟩
          rw [List.length_append, List.length_take]
          omega

theorem fgetsCalls_cons (line : Text) (lines : List Text) :
    fgetsCalls (line :: lines) =
      readsOf (chunkBufferSize - 1) line.length + fgetsCalls lines := by
  rw [fgetsCalls, List.map_cons, List.sum_cons, fgetsCalls]

/-- Lines take their calls, and fewer calls read less than the lines. -/
theorem readCalls_lines {lines : List Text} {rest : Text} (stand : AllStand '\n' lines rest)
    (calls : Nat) {buffer : Option Text} (notEmpty : ∀ text ∈ buffer, text ≠ []) :
    (fgetsCalls lines ≤ calls ∧ ∃ buffer' : Option Text, (∀ text ∈ buffer', text ≠ []) ∧
      readCalls calls buffer (lines.flatten ++ rest) =
        (readCalls (calls - fgetsCalls lines) buffer' rest).map (lines.flatten ++ ·)) ∨
    (calls < fgetsCalls lines ∧
      ∃ text, readCalls calls buffer (lines.flatten ++ rest) = some text ∧
        text.length < lines.flatten.length) := by
  induction lines generalizing calls buffer with
  | nil =>
      refine .inl ⟨Nat.zero_le calls, buffer, notEmpty, ?_⟩
      simp [fgetsCalls]
  | cons line lines inductionHypothesis =>
      obtain ⟨here, later⟩ := stand
      rw [fgetsCalls_cons, List.flatten_cons, List.append_assoc, List.length_append]
      rcases readCalls_line here calls buffer with
        ⟨enough, last, lastNonempty, read⟩ | ⟨few, text, read, shorter⟩
      · rw [read]
        have lastOnly : ∀ text ∈ some last, text ≠ [] := by simpa using lastNonempty
        rcases inductionHypothesis later
            (calls - readsOf (chunkBufferSize - 1) line.length) lastOnly with
          ⟨enoughLater, buffer', notEmpty', readLater⟩ | ⟨few, text, readLater, shorter⟩
        · refine .inl ⟨by omega, buffer', notEmpty', ?_⟩
          rw [readLater, Option.map_map, Nat.sub_sub]
          congr 1
          funext text
          simp
        · refine .inr ⟨by omega, line ++ text, by rw [readLater, Option.map_some], ?_⟩
          rw [List.length_append]
          omega
      · exact .inr ⟨by omega, text, read, by omega⟩

/-- At the end of the file a call that reads nothing still adds something, or it fails. -/
theorem readCalls_end {calls : Nat} {buffer : Option Text} (notEmpty : ∀ text ∈ buffer, text ≠ []) :
    readCalls calls buffer [] = some [] ↔ calls = 0 := by
  cases calls with
  | zero => exact iff_of_true rfl rfl
  | succ calls =>
      refine iff_of_false (fun read => ?_) (Nat.succ_ne_zero calls)
      cases buffer with
      | none => simp [readCalls, fgets] at read
      | some text =>
          rw [readCalls, fgets, if_pos rfl, Option.bind_some, Option.map_eq_some_iff] at read
          obtain ⟨later, -, same⟩ := read
          exact notEmpty text rfl (List.append_eq_nil_iff.mp same).1

/-! ## Ranges -/

/-- Every line takes at least one call. -/
theorem length_le_fgetsCalls {lines : List Text} {rest : Text}
    (stand : AllStand '\n' lines rest) : lines.length ≤ fgetsCalls lines := by
  induction lines with
  | nil => exact Nat.zero_le _
  | cons line lines inductionHypothesis =>
      have nonempty : 0 < line.length := List.length_pos_iff.mpr stand.1.ne_nil
      have positive : 0 < readsOf (chunkBufferSize - 1) line.length :=
        readsOf_pos (by decide) nonempty
      have later := inductionHypothesis stand.2
      rw [fgetsCalls_cons, List.length_cons]
      omega

/-- The lines of a range stand in front of those behind it. -/
theorem rangeLines_stand (content : Text) (start count : Nat) :
    AllStand '\n' (rangeLines content start count)
      (((endedLines '\n' content).drop (start - 1)).drop count).flatten := by
  have all : AllStand '\n' (endedLines '\n' content) [] := allStand_endedLines content
  rw [← List.take_append_drop (start - 1) (endedLines '\n' content), allStand_append_iff] at all
  have behind := all.2
  rw [← List.take_append_drop count ((endedLines '\n' content).drop (start - 1)),
    allStand_append_iff, List.append_nil] at behind
  exact behind.1

/-- From a line start on, the file is the range and what is behind it. -/
theorem rangeLines_append (content : Text) (start count : Nat) :
    ((endedLines '\n' content).drop (start - 1)).flatten =
      (rangeLines content start count).flatten ++
        (((endedLines '\n' content).drop (start - 1)).drop count).flatten := by
  rw [rangeLines, ← List.flatten_append, List.take_append_drop]

/-- A range with fewer lines than asked for goes up to the end of the file. -/
theorem behind_rangeLines {content : Text} {start count : Nat}
    (short : (rangeLines content start count).length < count) :
    ((endedLines '\n' content).drop (start - 1)).drop count = [] := by
  rw [rangeLines, List.length_take] at short
  exact List.drop_eq_nil_iff.mpr (by omega)

/-- A chunk is exactly the range of lines if and only if these take one call of `fgets` for each
line start in the range. -/
theorem readFileChunk_exact_iff (content : Text) {start : Nat} (fromOne : 1 ≤ start)
    (count : Nat) :
    readFileChunk content start count (computeOffsets content) =
        some (rangeLines content start count).flatten ↔
      OneCallForEachStart content start count := by
  have stand := rangeLines_stand content start count
  rw [OneCallForEachStart, readFileChunk, length_computeOffsets, computeOffsets_eq]
  by_cases inside : start - 1 ≤ content.count '\n'
  · obtain ⟨position, found, dropped⟩ := drop_lineStart content inside
    have calls : content.count '\n' + 1 + 1 - (start + 0) = content.count '\n' + 2 - start := by
      omega
    rw [found]
    simp only [readLinesFrom_eq, dropped, rangeLines_append content start count, calls]
    generalize made : min count (content.count '\n' + 2 - start) = calls
    have noBuffer : ∀ text ∈ (none : Option Text), text ≠ [] := by simp
    rcases readCalls_lines stand calls noBuffer with
      ⟨enough, buffer, notEmpty, read⟩ | ⟨few, text, read, shorter⟩
    · -- what is read behind the range has to be empty
      have rest : readCalls calls none ((rangeLines content start count).flatten ++
          (((endedLines '\n' content).drop (start - 1)).drop count).flatten) =
            some (rangeLines content start count).flatten ↔
          readCalls (calls - fgetsCalls (rangeLines content start count)) buffer
            (((endedLines '\n' content).drop (start - 1)).drop count).flatten = some [] := by
        rw [read, Option.map_eq_some_iff]
        simp
      rw [rest]
      rcases Nat.eq_or_lt_of_le enough with same | more
      · rw [same, Nat.sub_self]
        exact iff_of_true rfl rfl
      · have lines := length_le_fgetsCalls stand
        rw [behind_rangeLines (by omega), List.flatten_nil, readCalls_end notEmpty]
        omega
    · refine iff_of_false (fun exact_ => ?_) few.ne'
      rw [read, Option.some.injEq] at exact_
      rw [exact_] at shorter
      exact Nat.lt_irrefl _ shorter
  · have length : (endedLines '\n' content).length ≤ content.count '\n' + 1 :=
      length_endedLines_le content
    have empty : rangeLines content start count = [] := by
      rw [rangeLines, List.drop_eq_nil_iff.mpr (by omega), List.take_nil]
    have outside : (0 :: breaksFrom '\n' 0 content)[start - 1]? = none := by
      rw [List.getElem?_eq_none_iff, List.length_cons, length_breaksFrom]
      omega
    have noCalls : content.count '\n' + 2 - start = 0 := by omega
    rw [outside, empty, noCalls]
    exact iff_of_true rfl (by simp [fgetsCalls])

/-- A range of one line in the middle of a file. -/
theorem readFileChunk_second :
    1 ≤ 2 ∧ (readFileChunk "a\nb\nc".toList 2 1 (computeOffsets "a\nb\nc".toList) =
        some (rangeLines "a\nb\nc".toList 2 1).flatten ↔
      OneCallForEachStart "a\nb\nc".toList 2 1) :=
  ⟨by decide, readFileChunk_exact_iff _ (by decide) _⟩

/-- Behind a final line break the last line is read again. -/
theorem lastLine_repeated :
    ¬ readFileChunk "a\n".toList 1 2 (computeOffsets "a\n".toList) =
      some (rangeLines "a\n".toList 1 2).flatten := by
  decide

end MergeBot
