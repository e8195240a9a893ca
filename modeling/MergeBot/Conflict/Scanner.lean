import MergeBot.Foundation.Lines

/-!
# Conflict blocks of a file

`constructConflictFile` walks a buffer of characters with the positions and
nested loops of the source; a read outside the buffer makes it fail.
`constructConflictSpans` is the same walk with the positions that it copies.
On complete lines and a last one it finds the spans of a line automaton, or
fails because a block is open: `constructConflictSpans_lines`. On a text made
of lines the blocks are those of `scanLines`: `constructConflictFile_unlines`.
-/

namespace MergeBot

open Foundation

/-- File contents and code, as characters. -/
abbrev Text := List Char

/-- The four markers of a conflict block. -/
inductive ConflictMark
  | ours
  | base
  | theirs
  | end_
deriving DecidableEq, Repr

namespace ConflictMark

/-- The seven characters of a marker. -/
def text : ConflictMark → Text
  | ours => List.replicate 7 '<'
  | base => List.replicate 7 '|'
  | theirs => List.replicate 7 '='
  | end_ => List.replicate 7 '>'

/-- A line that begins with the marker. -/
def Begins (mark : ConflictMark) (line : Text) : Prop :=
  mark.text <+: line

instance (mark : ConflictMark) (line : Text) : Decidable (mark.Begins line) :=
  inferInstanceAs (Decidable (mark.text <+: line))

@[simp]
theorem length_text (mark : ConflictMark) : mark.text.length = 7 := by
  cases mark <;> rfl

theorem text_ne_nil (mark : ConflictMark) : mark.text ≠ [] := by
  cases mark <;> decide

theorem single_text (mark : ConflictMark) : '\n' ∉ mark.text := by
  cases mark <;> decide

theorem text_injective : Function.Injective text := by
  intro first second same
  cases first <;> cases second <;> first | rfl | exact absurd same (by decide)

/-- A line begins with one marker at most. -/
theorem Begins.unique {first second : ConflictMark} {line : Text} (atFirst : first.Begins line)
    (atSecond : second.Begins line) : first = second :=
  text_injective ((List.prefix_of_prefix_length_le atFirst atSecond (by simp)).eq_of_length
    (by simp))

/-- A marker line begins with no other marker. -/
theorem Begins.not_other {mark other : ConflictMark} {line : Text} (begins : mark.Begins line)
    (distinct : other ≠ mark) : ¬ other.Begins line :=
  fun otherBegins => distinct (otherBegins.unique begins)

end ConflictMark

/-- One conflict of a file, with its number and its text from marker to marker. -/
structure ConflictBlock where
  index : Nat
  conflictRange : Text
  resolved : Bool := false
deriving DecidableEq, Repr

/-! ## The scanner -/

/-- Elements from `start` up to `stop`. -/
def slice (buffer : Text) (start stop : Nat) : Text :=
  (buffer.drop start).take (stop - start)

/-- Position of the next line break, or the end; `none` from outside the buffer. -/
def findLineBreak (buffer : Text) (position : Nat) : Option Nat :=
  if position ≤ buffer.length then
    some (position + ((buffer.drop position).takeWhile fun c => c ≠ '\n').length)
  else none

/-- The inner loop: `some` line break of the end marker's line, or none of them
when the position arrives at the end of the buffer. -/
def findBlockEnd (buffer : Text) : Nat → Nat → Nat → Option (Option Nat)
  | 0, _, _ => none
  | fuel + 1, position, lineStart =>
      if position = buffer.length then some none
      else do
        let position ← findLineBreak buffer position
        let line := slice buffer lineStart position
        if line.length < 7 then findBlockEnd buffer fuel (position + 1) (position + 1)
        else if line.take 7 = ConflictMark.end_.text then some (some position)
        else findBlockEnd buffer fuel (position + 1) (position + 1)

/-- The outer loop. -/
def findBlocks (buffer : Text) : Nat → Nat → Nat → Nat → Option (List ConflictBlock)
  | 0, _, _, _ => none
  | fuel + 1, position, lineStart, index =>
      if position < buffer.length then do
        let position ← findLineBreak buffer position
        let line := slice buffer lineStart position
        if line.length < 7 then findBlocks buffer fuel (position + 1) (position + 1) index
        else if line.take 7 = ConflictMark.ours.text then
          match ← findBlockEnd buffer (buffer.length + 2) position lineStart with
          | none =>
              findBlocks buffer fuel (buffer.length + 1) (buffer.length + 1) (index + 1)
          | some stop =>
              -- the copied range includes the line break
              if stop + 1 ≤ buffer.length then do
                let later ← findBlocks buffer fuel (stop + 1) (stop + 1) (index + 1)
                return { index := index + 1, conflictRange := slice buffer lineStart (stop + 1) } ::
                  later
              else none
        else findBlocks buffer fuel (position + 1) (position + 1) index
      else some []

/-- All conflict blocks of a file, numbered from one. -/
def constructConflictFile (buffer : Text) : Option (List ConflictBlock) :=
  findBlocks buffer (buffer.length + 1) 0 0 0

/-- The outer loop with the characters that each block copies, from `BlockStart`
up to the one behind `Pos`. -/
def findSpans (buffer : Text) : Nat → Nat → Nat → Option (List (Nat × Nat))
  | 0, _, _ => none
  | fuel + 1, position, lineStart =>
      if position < buffer.length then do
        let position ← findLineBreak buffer position
        let line := slice buffer lineStart position
        if line.length < 7 then findSpans buffer fuel (position + 1) (position + 1)
        else if line.take 7 = ConflictMark.ours.text then
          match ← findBlockEnd buffer (buffer.length + 2) position lineStart with
          | none => findSpans buffer fuel (buffer.length + 1) (buffer.length + 1)
          | some stop =>
              if stop + 1 ≤ buffer.length then do
                let later ← findSpans buffer fuel (stop + 1) (stop + 1)
                return (lineStart, stop + 1) :: later
              else none
        else findSpans buffer fuel (position + 1) (position + 1)
      else some []

/-- Where the conflict blocks of a file stand. -/
def constructConflictSpans (buffer : Text) : Option (List (Nat × Nat)) :=
  findSpans buffer (buffer.length + 1) 0 0

/-- The blocks that stand at the spans, numbered after `index`. -/
def blocksAt (buffer : Text) : Nat → List (Nat × Nat) → List ConflictBlock
  | _, [] => []
  | index, (start, stop) :: rest =>
      { index := index + 1, conflictRange := slice buffer start stop } ::
        blocksAt buffer (index + 1) rest

/-- The spans as an automaton over lines of given sizes: the start of the block
that is open, if there is one, and the position of the line. -/
def scanSpans (size : Text → Nat) : Option Nat → Nat → List Text → List (Nat × Nat)
  | _, _, [] => []
  | none, position, line :: rest =>
      if ConflictMark.ours.Begins line then
        scanSpans size (some position) (position + size line) rest
      else scanSpans size none (position + size line) rest
  | some start, position, line :: rest =>
      if ConflictMark.end_.Begins line then
        (start, position + size line) :: scanSpans size none (position + size line) rest
      else scanSpans size (some start) (position + size line) rest

/-- The size of several lines. -/
def totalSize (size : Text → Nat) : List Text → Nat
  | [] => 0
  | line :: rest => size line + totalSize size rest

/-- Number of characters of a line with its line break. -/
def lineSize (line : Text) : Nat := line.length + 1

/-- The scanner as an automaton over lines: the lines of the block that is
open, if there is one, and the number of the last block. -/
def scanLines : Option (List Text) → Nat → List Text → List ConflictBlock
  | _, _, [] => []
  | none, index, line :: rest =>
      if ConflictMark.ours.Begins line then scanLines (some [line]) (index + 1) rest
      else scanLines none index rest
  | some block, index, line :: rest =>
      if ConflictMark.end_.Begins line then
        { index, conflictRange := unlines '\n' (block ++ [line]) } :: scanLines none index rest
      else scanLines (some (block ++ [line])) index rest

section Positions

variable {before line after : Text}

theorem slice_line : slice (before ++ line ++ after) before.length (before.length + line.length) =
    line := by
  simp [slice]

/-- From anywhere in a line, its line break comes next. -/
theorem findLineBreak_line (single : '\n' ∉ line) {offset : Nat} (inside : offset ≤ line.length) :
    findLineBreak (before ++ line ++ '\n' :: after) (before.length + offset) =
      some (before.length + line.length) := by
  have rest : (before ++ line ++ '\n' :: after).drop (before.length + offset) =
      line.drop offset ++ '\n' :: after := by
    simp [List.drop_append_of_le_length inside]
  have characters : ∀ c ∈ line.drop offset, (decide (c ≠ '\n')) = true := by
    intro c member
    simp only [ne_eq, decide_eq_true_eq]
    rintro rfl
    exact single (List.mem_of_mem_drop member)
  rw [findLineBreak, rest, List.takeWhile_append_of_pos characters]
  simp only [List.length_append, List.length_cons, List.takeWhile_cons, ne_eq, not_true_eq_false,
    decide_false, Bool.false_eq_true, if_false, List.append_nil, List.length_drop]
  rw [if_pos (by omega)]
  congr 1
  omega

/-- The comparison of the first seven characters recognises a marker line. -/
theorem marker_test (mark : ConflictMark) (line : Text) :
    (¬ line.length < 7 ∧ line.take 7 = mark.text) ↔ mark.Begins line := by
  rw [ConflictMark.Begins, List.prefix_iff_eq_take, mark.length_text]
  constructor
  · rintro ⟨-, same⟩
    exact same.symm
  · intro same
    have length := congrArg List.length same
    simp only [ConflictMark.length_text, List.length_take] at length
    exact ⟨by omega, same.symm⟩

/-- Skipping short lines and comparing the others is one test for the marker. -/
theorem marker_branch {β : Type} (mark : ConflictMark) (line : Text) (hit miss : β) :
    (if line.length < 7 then miss else if line.take 7 = mark.text then hit else miss) =
      if mark.Begins line then hit else miss := by
  have test := marker_test mark line
  by_cases begins : mark.Begins line
  · obtain ⟨long, same⟩ := test.mpr begins
    rw [if_neg long, if_pos same, if_pos begins]
  · rw [if_neg begins]
    by_cases short : line.length < 7
    · rw [if_pos short]
    · rw [if_neg short, if_neg fun same => begins (test.mp ⟨short, same⟩)]

/-- One turn of the inner loop reads one line. -/
theorem findBlockEnd_line (single : '\n' ∉ line) {offset : Nat} (inside : offset ≤ line.length)
    (fuel : Nat) :
    findBlockEnd (before ++ line ++ '\n' :: after) (fuel + 1) (before.length + offset)
        before.length =
      if ConflictMark.end_.Begins line then some (some (before.length + line.length))
      else findBlockEnd (before ++ line ++ '\n' :: after) fuel
        (before ++ line ++ ['\n']).length (before ++ line ++ ['\n']).length := by
  have unfinished : ¬ before.length + offset = (before ++ line ++ '\n' :: after).length := by
    simp only [List.length_append, List.length_cons]
    omega
  have next : (before ++ line ++ ['\n']).length = before.length + line.length + 1 := by
    simp only [List.length_append, List.length_singleton]
  rw [findBlockEnd, if_neg unfinished, findLineBreak_line single inside, next]
  simp only [Option.bind_eq_bind, Option.bind_some, slice_line]
  exact marker_branch .end_ line _ _

/-- One turn of the outer loop reads one line; at a start marker the inner loop
goes on with the line after it. -/
theorem findSpans_line (single : '\n' ∉ line) (fuel : Nat) :
    let buffer := before ++ line ++ '\n' :: after
    let next := (before ++ line ++ ['\n']).length
    findSpans buffer (fuel + 1) before.length before.length =
      if ConflictMark.ours.Begins line then
        match findBlockEnd buffer (buffer.length + 1) next next with
        | none => none
        | some none => findSpans buffer fuel (buffer.length + 1) (buffer.length + 1)
        | some (some stop) =>
            if stop + 1 ≤ buffer.length then
              (findSpans buffer fuel (stop + 1) (stop + 1)).map ((before.length, stop + 1) :: ·)
            else none
      else findSpans buffer fuel next next := by
  intro buffer next
  have unfinished : before.length < buffer.length := by
    simp only [buffer, List.length_append, List.length_cons]
    omega
  have lineBreak : findLineBreak buffer before.length = some (before.length + line.length) :=
    findLineBreak_line single (show 0 ≤ line.length from Nat.zero_le _)
  have nextLength : before.length + line.length + 1 = next := by
    simp only [next, List.length_append, List.length_singleton]
  have inner : findBlockEnd buffer (buffer.length + 2) (before.length + line.length)
      before.length = _ := findBlockEnd_line single (Nat.le_refl _) (buffer.length + 1)
  rw [findSpans, if_pos unfinished, lineBreak]
  simp only [Option.bind_eq_bind, Option.bind_some]
  rw [show slice buffer before.length (before.length + line.length) = line from slice_line,
    marker_branch .ours line, nextLength]
  by_cases starts : ConflictMark.ours.Begins line
  · have notEnd : ¬ ConflictMark.end_.Begins line := fun ends => by
      cases starts.unique ends
    rw [if_pos starts, if_pos starts, inner, if_neg notEnd]
    cases findBlockEnd buffer (buffer.length + 1) next next with
    | none => rfl
    | some found =>
        cases found with
        | none => rfl
        | some stop =>
            simp only [Option.bind_some]
            split
            · cases findSpans buffer fuel (stop + 1) (stop + 1) <;> rfl
            · rfl
  · rw [if_neg starts, if_neg starts]

end Positions

/-- Behind the end of the buffer the outer loop is over. -/
theorem findSpans_over (buffer : Text) (fuel : Nat) {position : Nat}
    (ended : buffer.length ≤ position) (lineStart : Nat) :
    findSpans buffer (fuel + 1) position lineStart = some [] := by
  rw [findSpans, if_neg (by omega)]

/-- The blocks are the texts at the spans. -/
theorem findBlocks_eq_blocksAt (buffer : Text) (fuel position lineStart index : Nat) :
    findBlocks buffer fuel position lineStart index =
      (findSpans buffer fuel position lineStart).map (blocksAt buffer index) := by
  induction fuel generalizing position lineStart index with
  | zero => rfl
  | succ fuel ih =>
      rw [findBlocks, findSpans]
      by_cases unfinished : position < buffer.length
      · rw [if_pos unfinished, if_pos unfinished]
        cases findLineBreak buffer position with
        | none => rfl
        | some lineBreak =>
            simp only [Option.bind_eq_bind, Option.bind_some]
            split
            · exact ih _ _ _
            · split
              · cases findBlockEnd buffer (buffer.length + 2) lineBreak lineStart with
                | none => rfl
                | some found =>
                    simp only [Option.bind_some]
                    cases found with
                    | none =>
                        -- the counter was advanced, but no block follows
                        cases fuel with
                        | zero => rfl
                        | succ fuel =>
                            rw [ih, findSpans_over buffer fuel (Nat.le_succ _)]
                            rfl
                    | some stop =>
                        simp only
                        split
                        · rw [ih]
                          cases findSpans buffer fuel (stop + 1) (stop + 1) <;> rfl
                        · rfl
              · exact ih _ _ _
      · rw [if_neg unfinished, if_neg unfinished]
        rfl

theorem constructConflictFile_eq_blocksAt (buffer : Text) :
    constructConflictFile buffer = (constructConflictSpans buffer).map (blocksAt buffer 0) :=
  findBlocks_eq_blocksAt buffer _ _ _ _


/-! ## Spans of a text made of lines -/

/-- The lines up to and including the first end marker line, and those after it. -/
def splitBlock : List Text → Option (List Text × List Text)
  | [] => none
  | line :: rest =>
      if ConflictMark.end_.Begins line then some ([line], rest)
      else (splitBlock rest).map fun (block, after) => (line :: block, after)

theorem splitBlock_some {lines block after : List Text}
    (split : splitBlock lines = some (block, after)) : lines = block ++ after ∧ block ≠ [] := by
  induction lines generalizing block with
  | nil => simp [splitBlock] at split
  | cons line rest ih =>
      by_cases ends : ConflictMark.end_.Begins line
      · simp only [splitBlock, ends, if_true, Option.some.injEq, Prod.mk.injEq] at split
        obtain ⟨rfl, rfl⟩ := split
        simp
      · simp only [splitBlock, ends, if_false, Option.map_eq_some_iff, Prod.mk.injEq,
          Prod.exists] at split
        obtain ⟨inner, _, found, rfl, rfl⟩ := split
        simp [(ih found).1]

/-- There is no such line to split at when no line is an end marker line. -/
theorem splitBlock_eq_none_iff {lines : List Text} :
    splitBlock lines = none ↔ ∀ line ∈ lines, ¬ ConflictMark.end_.Begins line := by
  induction lines with
  | nil => simp [splitBlock]
  | cons line rest ih =>
      by_cases ends : ConflictMark.end_.Begins line
      · simp [splitBlock, ends]
      · simp [splitBlock, ends, ih]

/-- Lines with a first one that has a property, or none. -/
theorem first_or_none {p : Text → Prop} [DecidablePred p] (lines : List Text) :
    (∀ line ∈ lines, ¬ p line) ∨
      ∃ clear line rest, lines = clear ++ line :: rest ∧ p line ∧ ∀ other ∈ clear, ¬ p other := by
  cases found : lines.find? (fun line => p line) with
  | none => exact .inl (by simpa using found)
  | some line =>
      obtain ⟨holds, clear, rest, shape, before⟩ := List.find?_eq_some_iff_append.mp found
      exact .inr ⟨clear, line, rest, shape, by simpa using holds, by simpa using before⟩

/-- The split is at the first end marker line. -/
theorem splitBlock_body {body : List Text}
    (clear : ∀ line ∈ body, ¬ ConflictMark.end_.Begins line) {stop : Text}
    (ends : ConflictMark.end_.Begins stop) (after : List Text) :
    splitBlock (body ++ stop :: after) = some (body ++ [stop], after) := by
  induction body with
  | nil => simp [splitBlock, ends]
  | cons line rest ih =>
      have later := ih fun other member => clear other (List.mem_cons_of_mem _ member)
      simp [splitBlock, clear line List.mem_cons_self, later]

/-- An open block is closed by the next end marker line, if there is one. -/
theorem scanSpans_open (size : Text → Nat) (start position : Nat) (lines : List Text) :
    scanSpans size (some start) position lines =
      match splitBlock lines with
      | none => []
      | some (more, after) =>
          (start, position + totalSize size more) ::
            scanSpans size none (position + totalSize size more) after := by
  induction lines generalizing position with
  | nil => rfl
  | cons line rest ih =>
      by_cases ends : ConflictMark.end_.Begins line
      · simp [scanSpans, splitBlock, ends, totalSize]
      · simp only [scanSpans, splitBlock, ends, if_false, ih]
        cases splitBlock rest with
        | none => rfl
        | some split => simp [totalSize, Nat.add_assoc]

theorem totalSize_lineSize (lines : List Text) :
    totalSize lineSize lines = (unlines '\n' lines).length := by
  induction lines with
  | nil => rfl
  | cons line rest ih =>
      simp only [totalSize, ih, lineSize, unlines_cons, List.length_append,
        List.length_cons]
      omega

section LastLine

variable {last : Text}

/-- Behind the end of the buffer there is nothing to read. -/
theorem findBlockEnd_outside (buffer : Text) (fuel : Nat) :
    findBlockEnd buffer fuel (buffer.length + 1) (buffer.length + 1) = none := by
  cases fuel with
  | zero => rfl
  | succ fuel =>
      have outside : findLineBreak buffer (buffer.length + 1) = none := by
        rw [findLineBreak, if_neg (by omega)]
      rw [findBlockEnd, if_neg (by omega), outside]
      rfl

theorem findLineBreak_last (noBreak : '\n' ∉ last) (before : Text) :
    findLineBreak (before ++ last) before.length = some (before.length + last.length) := by
  have characters : last.takeWhile (fun c => c ≠ '\n') = last := by
    have inLine : ∀ c ∈ last, decide (c ≠ '\n') = true := by
      intro c member
      simp only [ne_eq, decide_eq_true_eq]
      rintro rfl
      exact noBreak member
    have whole : (last ++ []).takeWhile (fun c => c ≠ '\n') =
        last ++ [].takeWhile fun c => c ≠ '\n' := List.takeWhile_append_of_pos inLine
    simpa using whole
  rw [findLineBreak, if_pos (by simp), List.drop_left, characters]

/-- The inner loop runs past the end from a last line without a line break, or
stops at its end. -/
theorem findBlockEnd_last (noBreak : '\n' ∉ last) (unfinished : last ≠ []) (before : Text)
    (fuel : Nat) :
    findBlockEnd (before ++ last) (fuel + 1) before.length before.length =
      if ConflictMark.end_.Begins last then some (some (before ++ last).length) else none := by
  have positive : 0 < last.length := List.length_pos_of_ne_nil unfinished
  have notOver : ¬ before.length = (before ++ last).length := by
    simp only [List.length_append]
    omega
  have view : slice (before ++ last) before.length (before.length + last.length) = last := by
    simp [slice]
  have total : before.length + last.length = (before ++ last).length := by simp
  rw [findBlockEnd, if_neg notOver, findLineBreak_last noBreak]
  simp only [Option.bind_eq_bind, Option.bind_some, view]
  rw [total, findBlockEnd_outside]
  exact marker_branch .end_ last _ _

/-- From the start of a line the inner loop finds the first end marker line.
Without one it ends at the end of the buffer, if the last line is complete. -/
theorem findBlockEnd_unlines {lines : List Text} (single : ∀ line ∈ lines, '\n' ∉ line)
    (noBreak : '\n' ∉ last) (before : Text) {fuel : Nat} (enough : lines.length < fuel) :
    findBlockEnd (before ++ unlines '\n' lines ++ last) fuel before.length before.length =
      match splitBlock lines with
      | some (block, _) => some (some (before.length + (unlines '\n' block).length - 1))
      | none =>
          if last = [] then some none
          else if ConflictMark.end_.Begins last then
            some (some (before ++ unlines '\n' lines ++ last).length)
          else none := by
  induction lines generalizing before fuel with
  | nil =>
      cases fuel with
      | zero => simp at enough
      | succ fuel =>
          by_cases complete : last = []
          · simp [findBlockEnd, splitBlock, complete]
          · simp only [unlines_nil, List.append_nil, splitBlock, complete, if_false]
            exact findBlockEnd_last noBreak complete before fuel
  | cons line rest ih =>
      cases fuel with
      | zero => simp at enough
      | succ fuel =>
          have shape : before ++ unlines '\n' (line :: rest) ++ last =
              before ++ line ++ '\n' :: (unlines '\n' rest ++ last) := by simp
          have lineSingle := single line List.mem_cons_self
          have turn : findBlockEnd (before ++ line ++ '\n' :: (unlines '\n' rest ++ last))
              (fuel + 1) before.length before.length = _ :=
            findBlockEnd_line lineSingle (show 0 ≤ line.length from Nat.zero_le _) fuel
          rw [shape, turn]
          by_cases ends : ConflictMark.end_.Begins line
          · simp only [ends, if_true, splitBlock, unlines_cons, unlines_nil,
              List.length_append, List.length_singleton]
            congr 2
          · have later := ih (fun other member => single other (List.mem_cons_of_mem _ member))
              (before ++ line ++ ['\n']) (Nat.lt_of_succ_lt_succ enough)
            have same : before ++ line ++ ['\n'] ++ unlines '\n' rest ++ last =
                before ++ line ++ '\n' :: (unlines '\n' rest ++ last) := by simp
            rw [same] at later
            rw [if_neg ends, later, splitBlock, if_neg ends]
            cases splitBlock rest with
            | none => rfl
            | some split =>
                simp only [Option.map_some, unlines_cons, List.length_append, List.length_cons,
                  List.length_nil]
                congr 2
                omega

/-- The outer loop finds no block in a last line without a line break. -/
theorem findSpans_last (noBreak : '\n' ∉ last) (unfinished : last ≠ []) (before : Text)
    (fuel : Nat) :
    findSpans (before ++ last) (fuel + 2) before.length before.length = some [] := by
  have positive : 0 < last.length := List.length_pos_of_ne_nil unfinished
  have total : before.length + last.length = (before ++ last).length := by simp
  have view : slice (before ++ last) before.length (before ++ last).length = last := by
    simp [slice]
  have ended (lineStart : Nat) : findSpans (before ++ last) (fuel + 1)
      ((before ++ last).length + 1) lineStart = some [] :=
    findSpans_over _ _ (Nat.le_succ _) _
  have inner : findBlockEnd (before ++ last) ((before ++ last).length + 2)
      (before ++ last).length before.length = some none := by
    rw [findBlockEnd, if_pos rfl]
  rw [findSpans, if_pos (by omega), findLineBreak_last noBreak, total]
  simp only [Option.bind_eq_bind, Option.bind_some, view]
  rw [marker_branch .ours last, inner, ended]
  simp only [Option.bind_some, ite_self]

end LastLine

/-- A start marker line with no end marker line behind it. -/
def Unclosed (lines : List Text) : Prop :=
  ∃ start later, start :: later <:+ lines ∧ ConflictMark.ours.Begins start ∧
    ∀ line ∈ later, ¬ ConflictMark.end_.Begins line

theorem unclosed_nil : ¬ Unclosed [] := by
  rintro ⟨start, later, suffix, -⟩
  simpa using suffix.length_le

theorem unclosed_cons {line : Text} {rest : List Text} :
    Unclosed (line :: rest) ↔
      (ConflictMark.ours.Begins line ∧ ∀ other ∈ rest, ¬ ConflictMark.end_.Begins other) ∨
        Unclosed rest := by
  constructor
  · rintro ⟨start, later, suffix, starts, open_⟩
    rcases List.suffix_cons_iff.mp suffix with same | suffix
    · obtain ⟨rfl, rfl⟩ := List.cons.inj same
      exact .inl ⟨starts, open_⟩
    · exact .inr ⟨start, later, suffix, starts, open_⟩
  · rintro (⟨starts, open_⟩ | ⟨start, later, suffix, starts, open_⟩)
    · exact ⟨line, rest, List.suffix_refl _, starts, open_⟩
    · exact ⟨start, later, suffix.trans (List.suffix_cons _ _), starts, open_⟩

instance decidableUnclosed : DecidablePred Unclosed
  | [] => .isFalse unclosed_nil
  | _ :: rest =>
      have := decidableUnclosed rest
      decidable_of_iff _ unclosed_cons.symm

/-- What is unclosed is behind the first end marker line. -/
theorem unclosed_split {lines block after : List Text}
    (split : splitBlock lines = some (block, after)) : Unclosed lines ↔ Unclosed after := by
  induction lines generalizing block with
  | nil => simp [splitBlock] at split
  | cons line rest ih =>
      rw [unclosed_cons]
      by_cases ends : ConflictMark.end_.Begins line
      · have notStart : ¬ ConflictMark.ours.Begins line := ends.not_other (by decide)
        simp only [splitBlock, ends, if_true, Option.some.injEq, Prod.mk.injEq] at split
        obtain ⟨-, rfl⟩ := split
        simp [notStart]
      · simp only [splitBlock, ends, if_false, Option.map_eq_some_iff, Prod.mk.injEq,
          Prod.exists] at split
        obtain ⟨inner, _, found, -, rfl⟩ := split
        have closed : ¬ ∀ other ∈ rest, ¬ ConflictMark.end_.Begins other := fun clear => by
          simp [splitBlock_eq_none_iff.mpr clear] at found
        rw [← ih found]
        simp [closed]

section StartMarker

variable {last line : Text} {rest : List Text} (noBreak : '\n' ∉ last)
  (starts : ConflictMark.ours.Begins line) (single : '\n' ∉ line)
  (restSingle : ∀ other ∈ rest, '\n' ∉ other) (before : Text)

include noBreak restSingle in
/-- The inner loop, behind a line of the file. -/
theorem findBlockEnd_behind :
    findBlockEnd (before ++ line ++ '\n' :: (unlines '\n' rest ++ last))
        ((before ++ line ++ '\n' :: (unlines '\n' rest ++ last)).length + 1)
        (before ++ line ++ ['\n']).length (before ++ line ++ ['\n']).length =
      match splitBlock rest with
      | some (block, _) =>
          some (some ((before ++ line ++ ['\n']).length + (unlines '\n' block).length - 1))
      | none =>
          if last = [] then some none
          else if ConflictMark.end_.Begins last then
            some (some (before ++ line ++ '\n' :: (unlines '\n' rest ++ last)).length)
          else none := by
  have enough : rest.length <
      (before ++ line ++ '\n' :: (unlines '\n' rest ++ last)).length + 1 := by
    have short : rest.length ≤ (unlines '\n' rest).length := length_le_unlines rest
    simp only [List.length_append, List.length_cons]
    omega
  have blockEnd := findBlockEnd_unlines restSingle noBreak (before ++ line ++ ['\n']) enough
  have next : before ++ line ++ ['\n'] ++ unlines '\n' rest ++ last =
      before ++ line ++ '\n' :: (unlines '\n' rest ++ last) := by simp
  rw [next] at blockEnd
  exact blockEnd

include noBreak starts single restSingle

/-- From a start marker line the outer loop goes on behind the first end marker line. -/
theorem findSpans_closed {block after : List Text} (split : splitBlock rest = some (block, after))
    (fuel : Nat) :
    findSpans (before ++ unlines '\n' (line :: rest) ++ last) (fuel + 1) before.length
        before.length =
      (findSpans (before ++ unlines '\n' (line :: rest) ++ last) fuel
          (before ++ unlines '\n' (line :: block)).length
          (before ++ unlines '\n' (line :: block)).length).map
        ((before.length, (before ++ unlines '\n' (line :: block)).length) :: ·) := by
  have shape : before ++ unlines '\n' (line :: rest) ++ last =
      before ++ line ++ '\n' :: (unlines '\n' rest ++ last) := by simp
  rw [shape, findSpans_line single, if_pos starts, findBlockEnd_behind noBreak restSingle, split]
  obtain ⟨rfl, blockSome⟩ := splitBlock_some split
  have positive : 0 < (unlines '\n' block).length :=
    Nat.lt_of_lt_of_le (List.length_pos_of_ne_nil blockSome) (length_le_unlines block)
  have stop : (before ++ line ++ ['\n']).length + (unlines '\n' block).length - 1 + 1 =
      (before ++ unlines '\n' (line :: block)).length := by
    simp only [List.length_append, unlines_cons, List.length_cons, List.length_nil]
    omega
  have inside : (before ++ unlines '\n' (line :: block)).length ≤
      (before ++ line ++ '\n' :: (unlines '\n' (block ++ after) ++ last)).length := by
    simp only [List.length_append, unlines_cons, unlines_append, List.length_cons]
    omega
  simp only [stop]
  rw [if_pos inside]

/-- From a start marker line without an end marker line the outer loop finds nothing, and reads
outside the buffer if the last line has no line break. -/
theorem findSpans_open (clear : ∀ other ∈ rest, ¬ ConflictMark.end_.Begins other) (fuel : Nat) :
    findSpans (before ++ unlines '\n' (line :: rest) ++ last) (fuel + 2) before.length
        before.length = if last = [] then some [] else none := by
  have shape : before ++ unlines '\n' (line :: rest) ++ last =
      before ++ line ++ '\n' :: (unlines '\n' rest ++ last) := by simp
  rw [shape, findSpans_line single, if_pos starts, findBlockEnd_behind noBreak restSingle,
    splitBlock_eq_none_iff.mpr clear]
  by_cases complete : last = []
  · simp [complete, findSpans_over]
  · simp only [complete, if_false]
    by_cases ends : ConflictMark.end_.Begins last
    · -- the line break behind the end marker is copied, and there is none
      simp only [ends, if_true]
      exact if_neg (Nat.not_succ_le_self _)
    · simp only [ends, if_false]

end StartMarker

/-- On complete lines and a last line the outer loop finds the spans that the
automaton finds, unless a block is still open at a last line without a line break:
then it reads outside the buffer. -/
theorem findSpans_unlines {last : Text} (noBreak : '\n' ∉ last) {lines : List Text}
    (single : ∀ line ∈ lines, '\n' ∉ line) (before : Text) {fuel : Nat}
    (enough : lines.length + last.length < fuel) :
    findSpans (before ++ unlines '\n' lines ++ last) fuel before.length before.length =
      if last ≠ [] ∧ Unclosed lines then none
      else some (scanSpans lineSize none before.length lines) := by
  induction fuel generalizing lines before with
  | zero => omega
  | succ fuel ih =>
      cases lines with
      | nil =>
          rw [if_neg fun both => unclosed_nil both.2, unlines_nil, List.append_nil]
          by_cases complete : last = []
          · rw [complete, List.append_nil, findSpans_over _ _ (Nat.le_refl _)]
            rfl
          · have positive : 0 < last.length := List.length_pos_of_ne_nil complete
            obtain ⟨fuel, rfl⟩ : ∃ less, fuel = less + 1 := ⟨fuel - 1, by omega⟩
            exact findSpans_last noBreak complete before fuel
      | cons line rest =>
          have lineSingle := single line List.mem_cons_self
          have restSingle : ∀ other ∈ rest, '\n' ∉ other := fun other member =>
            single other (List.mem_cons_of_mem _ member)
          have restFuel : rest.length + last.length < fuel := by
            rw [List.length_cons] at enough
            omega
          rw [scanSpans]
          by_cases starts : ConflictMark.ours.Begins line
          · rw [if_pos starts, scanSpans_open]
            cases split : splitBlock rest with
            | none =>
                have clear := splitBlock_eq_none_iff.mp split
                have unclosed : Unclosed (line :: rest) := unclosed_cons.mpr (.inl ⟨starts, clear⟩)
                obtain ⟨fuel, rfl⟩ : ∃ less, fuel = less + 1 := ⟨fuel - 1, by omega⟩
                rw [findSpans_open noBreak starts lineSingle restSingle before clear]
                by_cases complete : last = [] <;> simp [complete, unclosed]
            | some found =>
                obtain ⟨block, after⟩ := found
                have closed : ¬ ∀ other ∈ rest, ¬ ConflictMark.end_.Begins other := fun clear => by
                  simp [splitBlock_eq_none_iff.mpr clear] at split
                have behind : Unclosed (line :: rest) ↔ Unclosed after := by
                  rw [unclosed_cons, ← unclosed_split split]
                  simp [closed]
                rw [findSpans_closed noBreak starts lineSingle restSingle before split]
                obtain ⟨rfl, -⟩ := splitBlock_some split
                have later := ih (fun other member => restSingle other
                  (List.mem_append_right _ member))
                  (before ++ unlines '\n' (line :: block))
                  (by simp only [List.length_append] at restFuel; omega)
                have whole : before ++ unlines '\n' (line :: block) ++ unlines '\n' after ++ last =
                    before ++ unlines '\n' (line :: (block ++ after)) ++ last := by simp
                have stopSize : (before ++ unlines '\n' (line :: block)).length =
                    before.length + lineSize line + totalSize lineSize block := by
                  rw [totalSize_lineSize]
                  simp only [lineSize, List.length_append, unlines_cons, List.length_cons]
                  omega
                rw [whole] at later
                rw [later, stopSize]
                simp only [behind]
                by_cases outside : last ≠ [] ∧ Unclosed after
                · rw [if_pos outside, if_pos outside]
                  rfl
                · rw [if_neg outside, if_neg outside]
                  rfl
          · have shape : before ++ unlines '\n' (line :: rest) ++ last =
                before ++ line ++ '\n' :: (unlines '\n' rest ++ last) := by simp
            have next : before ++ line ++ ['\n'] ++ unlines '\n' rest ++ last =
                before ++ line ++ '\n' :: (unlines '\n' rest ++ last) := by simp
            have nextLength : (before ++ line ++ ['\n']).length =
                before.length + lineSize line := by simp [lineSize]
            have later := ih restSingle (before ++ line ++ ['\n']) restFuel
            have same : Unclosed (line :: rest) ↔ Unclosed rest := by
              simp [unclosed_cons, starts]
            rw [next] at later
            rw [shape, findSpans_line lineSingle, if_neg starts, if_neg starts, later, nextLength]
            simp only [same]

/-- What the scanner makes of any file, as complete lines and a last one. -/
theorem constructConflictSpans_lines {lines : List Text} (single : ∀ line ∈ lines, '\n' ∉ line)
    {last : Text} (noBreak : '\n' ∉ last) :
    constructConflictSpans (unlines '\n' lines ++ last) =
      if last ≠ [] ∧ Unclosed lines then none
      else some (scanSpans lineSize none 0 lines) := by
  have bounded : lines.length + last.length < (unlines '\n' lines ++ last).length + 1 := by
    have short : lines.length ≤ (unlines '\n' lines).length := length_le_unlines lines
    rw [List.length_append]
    omega
  simpa [constructConflictSpans] using findSpans_unlines noBreak single [] bounded

/-- On a text made of lines the scanner reads nothing outside the buffer. -/
theorem constructConflictSpans_unlines {lines : List Text}
    (single : ∀ line ∈ lines, '\n' ∉ line) :
    constructConflictSpans (unlines '\n' lines) = some (scanSpans lineSize none 0 lines) := by
  simpa using constructConflictSpans_lines single List.not_mem_nil

/-- The blocks at the automaton's spans are those that it collects, with no block
open and with an open one. -/
theorem blocksAt_scanSpans (lines : List Text) (index : Nat) (before after : Text) :
    (blocksAt (before ++ unlines '\n' lines ++ after) index
        (scanSpans lineSize none before.length lines) = scanLines none index lines) ∧
      ∀ opened, blocksAt (before ++ unlines '\n' (opened ++ lines) ++ after) index
          (scanSpans lineSize (some before.length)
            (before ++ unlines '\n' opened).length lines) =
        scanLines (some opened) (index + 1) lines := by
  induction lines generalizing index before with
  | nil => exact ⟨rfl, fun _ => rfl⟩
  | cons line rest ih =>
      have next (before : Text) : (before ++ unlines '\n' [line]).length =
          before.length + lineSize line := by simp [lineSize]
      refine ⟨?_, fun opened => ?_⟩
      · by_cases starts : ConflictMark.ours.Begins line
        · have inside := (ih index before).2 [line]
          rw [next] at inside
          simpa [scanSpans, scanLines, starts] using inside
        · have behind := (ih index (before ++ unlines '\n' [line])).1
          rw [next] at behind
          simpa [scanSpans, scanLines, starts] using behind
      · have nextOpened : (before ++ unlines '\n' (opened ++ [line])).length =
            (before ++ unlines '\n' opened).length + lineSize line := by
          rw [unlines_append, ← List.append_assoc, next]
        by_cases ends : ConflictMark.end_.Begins line
        · have behind := (ih (index + 1) (before ++ unlines '\n' (opened ++ [line]))).1
          rw [nextOpened] at behind
          have whole : before ++ unlines '\n' (opened ++ line :: rest) ++ after =
              before ++ unlines '\n' (opened ++ [line]) ++ unlines '\n' rest ++ after := by simp
          rw [scanSpans, if_pos ends, scanLines, if_pos ends, blocksAt, whole, behind,
            ← nextOpened, List.length_append, List.append_assoc _ (unlines '\n' rest), slice_line]
        · have inside := (ih index before).2 (opened ++ [line])
          rw [nextOpened] at inside
          simpa [scanSpans, scanLines, ends] using inside

/-- On a text made of lines the scanner finds the blocks the automaton finds,
and reads nothing outside the buffer. -/
theorem constructConflictFile_unlines {lines : List Text}
    (single : ∀ line ∈ lines, '\n' ∉ line) :
    constructConflictFile (unlines '\n' lines) = some (scanLines none 0 lines) := by
  have found := (blocksAt_scanSpans lines 0 [] []).1
  simp only [List.nil_append, List.append_nil, List.length_nil] at found
  rw [constructConflictFile_eq_blocksAt, constructConflictSpans_unlines single, Option.map_some,
    found]

end MergeBot
