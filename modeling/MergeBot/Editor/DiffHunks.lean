import Mathlib.Data.List.DropRight
import MergeBot.Conflict.Scanner
import MergeBot.Foundation.BoundedLines

/-!
# Hunks of a line diff

`customGitDiff2` makes hunks of the chunks that the diff library returns for two texts, and
`applyPatch` replaces the lines of one hunk. A hunk is returned when the next equal chunk comes,
so that the changes behind the last one are lost: `applyHunks_customGitDiff2_iff`.
-/

namespace MergeBot

open Foundation

/-! ## Lines of the editor -/

/-- `lines.join("\n")`. -/
def joinLines (lines : List Text) : Text :=
  ['\n'].intercalate lines

/-- `text.split("\n")`. -/
def splitText (text : Text) : List Text :=
  text.splitOn '\n'

/-- Lines of an editor: at least one, and no line break in any of them. -/
structure EditorLines (lines : List Text) : Prop where
  nonempty : lines ≠ []
  single : ∀ line ∈ lines, '\n' ∉ line

theorem splitText_joinLines {lines : List Text} (valid : EditorLines lines) :
    splitText (joinLines lines) = lines :=
  List.splitOn_intercalate '\n' valid.single valid.nonempty

theorem joinLines_splitText (text : Text) : joinLines (splitText text) = text :=
  List.intercalate_splitOn '\n'

/-- Complete lines in front of a text are pieces of their own. -/
theorem splitText_unlines {lines : List Text} (single : ∀ line ∈ lines, '\n' ∉ line)
    (text : Text) : splitText (unlines '\n' lines ++ text) = lines ++ splitText text := by
  induction lines with
  | nil => rfl
  | cons line lines inductionHypothesis =>
      obtain ⟨lineSingle, linesSingle⟩ := List.forall_mem_cons.mp single
      rw [splitText, unlines_cons, List.append_assoc, List.cons_append,
        List.splitOn_append_cons_self_of_not_mem lineSingle, ← splitText,
        inductionHypothesis linesSingle, List.cons_append]

/-- Pieces of a text are lines of an editor. -/
theorem editorLines_splitText (text : Text) : EditorLines (splitText text) := by
  obtain ⟨single, lastSingle⟩ := splitLines_single '\n' text
  have pieces := splitOn_unlines single lastSingle
  rw [splitLines_text] at pieces
  rw [splitText, pieces]
  refine ⟨by simp, fun line member => ?_⟩
  rcases List.mem_append.mp member with complete | last
  · exact single line complete
  · rwa [List.mem_singleton.mp last]

/-- There is a piece behind every line break. -/
theorem length_splitText (text : Text) : (splitText text).length = text.count '\n' + 1 := by
  obtain ⟨single, lastSingle⟩ := splitLines_single '\n' text
  have count := count_unlines single lastSingle
  rw [splitLines_text] at count
  rw [← splitLines_text '\n' text, splitText, splitOn_unlines single lastSingle, List.length_append,
    splitLines_text, count, List.length_singleton]

/-! ## Chunks and hunks -/

/-- What a chunk says about its text. -/
inductive DiffOperation
  | equal
  | delete
  | insert
deriving DecidableEq, Repr

/-- A chunk of a diff. -/
structure DiffChunk where
  operation : DiffOperation
  text : Text
deriving DecidableEq, Repr

/-- A new content for `offset` lines from line `start` on, counted from one. -/
structure EditorPatch where
  start : Nat
  offset : Nat
  newContent : Text
deriving DecidableEq, Repr

/-- A patch that comes from a diff, with the old content. -/
structure DiffHunk extends EditorPatch where
  oldContent : Text
deriving DecidableEq, Repr

/-- The loop over the chunks. A hunk that is open at the end is not returned. -/
def customGitDiffFrom : Option DiffHunk → Nat → List DiffChunk → List DiffHunk
  | _, _, [] => []
  | currentHunk, lineNo, diff :: rest =>
      let lines := (splitText diff.text).length - 1
      let opened :=
        currentHunk.getD { start := lineNo, offset := 0, oldContent := [], newContent := [] }
      match diff.operation with
      | .insert =>
          customGitDiffFrom (some { opened with newContent := opened.newContent ++ diff.text })
            lineNo rest
      | .delete =>
          customGitDiffFrom
            (some { opened with oldContent := opened.oldContent ++ diff.text, offset := lines })
            (lineNo + lines) rest
      | .equal => currentHunk.toList ++ customGitDiffFrom none (lineNo + lines) rest

/-- White space of JavaScript's regular expressions. -/
def isWhite (c : Char) : Bool :=
  c.toNat ∈ [0x9, 0xa, 0xb, 0xc, 0xd, 0x20, 0xa0, 0x1680, 0x2028, 0x2029, 0x202f, 0x205f, 0x3000,
    0xfeff] || (0x2000 ≤ c.toNat && c.toNat ≤ 0x200a)

/-- `text.replace(/\s/g, "")`. -/
def withoutWhite (text : Text) : Text :=
  text.filter fun c => !isWhite c

/-- The hunks of a diff that end at or behind a line and change more than white space. -/
def customGitDiff2 (differences : List DiffChunk) (startLine : Int := -1) : List DiffHunk :=
  (customGitDiffFrom none 1 differences).filter fun hunk =>
    !(hunk.start + hunk.offset - 1 < startLine : Bool) &&
      withoutWhite hunk.oldContent ≠ withoutWhite hunk.newContent

/-- The lines of a new content, without an empty one at the end. -/
def contentLines (newContent : Text) : List Text :=
  if (splitText newContent).getLast? = some [] then (splitText newContent).dropLast
  else splitText newContent

/-- The lines that `applyPatch` makes. -/
def patchLines (lines : List Text) (patch : EditorPatch) : List Text :=
  lines.take (patch.start - 1) ++ contentLines patch.newContent ++
    lines.drop (patch.start + patch.offset - 1)

/-- Every hunk applied, from the last to the first. -/
def applyHunks (lines : List Text) (hunks : List DiffHunk) : List Text :=
  hunks.foldr (fun hunk lines => patchLines lines hunk.toEditorPatch) lines

/-- Lines are counted from one. -/
theorem customGitDiffFrom_positive {currentHunk : Option DiffHunk} {lineNo : Nat}
    {diffs : List DiffChunk} (positive : 1 ≤ lineNo)
    (opened : ∀ hunk ∈ currentHunk, 1 ≤ hunk.start) :
    ∀ hunk ∈ customGitDiffFrom currentHunk lineNo diffs, 1 ≤ hunk.start := by
  induction diffs generalizing currentHunk lineNo with
  | nil => simp [customGitDiffFrom]
  | cons diff rest inductionHypothesis =>
      have start : 1 ≤ (currentHunk.getD
          { start := lineNo, offset := 0, oldContent := [], newContent := [] }).start := by
        cases currentHunk with
        | none => exact positive
        | some hunk => exact opened hunk rfl
      have later := positive.trans (Nat.le_add_right lineNo ((splitText diff.text).length - 1))
      rw [customGitDiffFrom]
      split
      · exact inductionHypothesis positive (by simpa using start)
      · exact inductionHypothesis later (by simpa using start)
      · intro hunk member
        rcases List.mem_append.mp member with closed | behind
        · exact opened hunk (Option.mem_toList.mp closed)
        · exact inductionHypothesis later (by simp) hunk behind

theorem customGitDiff2_positive (differences : List DiffChunk) (startLine : Int) :
    ∀ hunk ∈ customGitDiff2 differences startLine, 1 ≤ hunk.start := fun hunk member =>
  customGitDiffFrom_positive (Nat.le_refl 1) (by simp) hunk (List.mem_of_mem_filter member)

/-! ## What the diff library returns -/

/-- The text of the chunks that are not inserted. -/
def originalText (diffs : List DiffChunk) : Text :=
  diffs.flatMap fun diff => if diff.operation = .insert then [] else diff.text

/-- The text of the chunks that are not deleted. -/
def targetText (diffs : List DiffChunk) : Text :=
  diffs.flatMap fun diff => if diff.operation = .delete then [] else diff.text

/-- Chunks are whole lines: only a chunk with nothing behind it in its texts may end without a
line break. Between two equal chunks there is at most one of each kind. -/
structure LineChunks (diffs : List DiffChunk) : Prop where
  nonempty : ∀ diff ∈ diffs, diff.text ≠ []
  whole : ∀ before diff after, diffs = before ++ diff :: after → WholeLines '\n' diff.text ∨
    ((diff.operation ≠ .insert → originalText after = []) ∧
      (diff.operation ≠ .delete → targetText after = []))
  alternate : ∀ before run after, diffs = before ++ run ++ after →
    (∀ diff ∈ run, diff.operation ≠ .equal) →
      (run.filter fun diff => diff.operation = .delete).length ≤ 1 ∧
        (run.filter fun diff => diff.operation = .insert).length ≤ 1

/-- The chunks that the diff library may return for two texts. -/
structure LineDiff (original target : List Text) (diffs : List DiffChunk) : Prop extends
    LineChunks diffs where
  original_eq : originalText diffs = joinLines original
  target_eq : targetText diffs = joinLines target

/-- The chunks behind the last equal one. -/
def lastRun (diffs : List DiffChunk) : List DiffChunk :=
  diffs.rtakeWhile fun diff => diff.operation ≠ .equal

/-- Behind the last equal chunk only white space changes. -/
def LastRunWhite (diffs : List DiffChunk) : Prop :=
  withoutWhite (originalText (lastRun diffs)) = withoutWhite (targetText (lastRun diffs))

/-! ## White space -/

@[simp]
theorem withoutWhite_append (first second : Text) :
    withoutWhite (first ++ second) = withoutWhite first ++ withoutWhite second :=
  List.filter_append ..

/-- Line breaks are white space. -/
theorem withoutWhite_unlines (lines : List Text) :
    withoutWhite (unlines '\n' lines) = withoutWhite lines.flatten := by
  have lineBreak : withoutWhite ['\n'] = [] := by decide
  induction lines with
  | nil => rfl
  | cons line lines inductionHypothesis =>
      rw [unlines_cons, List.append_cons, List.flatten_cons]
      simp only [withoutWhite_append, lineBreak, inductionHypothesis, List.append_nil]

theorem withoutWhite_joinLines (lines : List Text) :
    withoutWhite (joinLines lines) = withoutWhite lines.flatten := by
  have lineBreak : withoutWhite ['\n'] = [] := by decide
  rw [joinLines]
  induction lines with
  | nil => rfl
  | cons line lines inductionHypothesis =>
      cases lines with
      | nil => rw [List.intercalate_singleton, List.flatten_singleton]
      | cons other lines =>
          rw [List.intercalate_cons_cons, List.flatten_cons]
          simp only [withoutWhite_append, lineBreak, inductionHypothesis, List.append_nil]

theorem withoutWhite_splitText (text : Text) :
    withoutWhite (splitText text).flatten = withoutWhite text := by
  rw [← withoutWhite_joinLines, joinLines_splitText]

/-! ## The loop -/

/-- The hunk of a run of chunks that are not equal. -/
def runHunk (lineNo : Nat) (run : List DiffChunk) : DiffHunk where
  start := lineNo
  offset := (originalText run).count '\n'
  oldContent := originalText run
  newContent := targetText run

@[simp]
theorem originalText_cons (diff : DiffChunk) (rest : List DiffChunk) :
    originalText (diff :: rest) =
      (if diff.operation = .insert then [] else diff.text) ++ originalText rest :=
  List.flatMap_cons ..

@[simp]
theorem targetText_cons (diff : DiffChunk) (rest : List DiffChunk) :
    targetText (diff :: rest) =
      (if diff.operation = .delete then [] else diff.text) ++ targetText rest :=
  List.flatMap_cons ..

theorem originalText_append (first second : List DiffChunk) :
    originalText (first ++ second) = originalText first ++ originalText second :=
  List.flatMap_append ..

theorem targetText_append (first second : List DiffChunk) :
    targetText (first ++ second) = targetText first ++ targetText second :=
  List.flatMap_append ..

/-- A run goes into the open hunk. Its deleted chunk, if there is one, sets the length. -/
theorem customGitDiffFrom_opened {run : List DiffChunk}
    (changes : ∀ diff ∈ run, diff.operation ≠ .equal)
    (once : (run.filter fun diff => diff.operation = .delete).length ≤ 1) (hunk : DiffHunk)
    (unset : (∃ diff ∈ run, diff.operation = .delete) → hunk.offset = 0) (lineNo : Nat)
    (rest : List DiffChunk) :
    customGitDiffFrom (some hunk) lineNo (run ++ rest) =
      customGitDiffFrom (some { hunk with
          offset := hunk.offset + (originalText run).count '\n'
          oldContent := hunk.oldContent ++ originalText run
          newContent := hunk.newContent ++ targetText run })
        (lineNo + (originalText run).count '\n') rest := by
  induction run generalizing hunk lineNo with
  | nil => simp [originalText, targetText]
  | cons diff run inductionHypothesis =>
      obtain ⟨here, later⟩ := List.forall_mem_cons.mp changes
      rw [List.cons_append, customGitDiffFrom]
      cases operation : diff.operation with
      | equal => exact absurd operation here
      | insert =>
          have onceLater : (run.filter fun diff => diff.operation = .delete).length ≤ 1 := by
            simpa [operation] using once
          simp only [Option.getD_some]
          rw [inductionHypothesis later onceLater
            { hunk with newContent := hunk.newContent ++ diff.text }
            (fun ⟨other, member, deleted⟩ => unset ⟨other, List.mem_cons_of_mem _ member, deleted⟩)]
          simp [operation]
      | delete =>
          have noMore : ∀ other ∈ run, other.operation ≠ .delete := by
            simpa [operation] using once
          have onceLater : (run.filter fun diff => diff.operation = .delete).length ≤ 1 := by
            rw [List.filter_eq_nil_iff.mpr fun other member => by simpa using noMore other member]
            exact Nat.zero_le _
          have first : hunk.offset = 0 := unset ⟨diff, List.mem_cons_self, operation⟩
          simp only [Option.getD_some, length_splitText, Nat.add_sub_cancel]
          rw [inductionHypothesis later onceLater
            { hunk with oldContent := hunk.oldContent ++ diff.text, offset := diff.text.count '\n' }
            (fun ⟨other, member, deleted⟩ => absurd deleted (noMore other member))]
          simp [operation, first, Nat.add_assoc]

/-- A run that begins behind an equal chunk opens its own hunk. -/
theorem customGitDiffFrom_run {run : List DiffChunk} (nonempty : run ≠ [])
    (changes : ∀ diff ∈ run, diff.operation ≠ .equal)
    (once : (run.filter fun diff => diff.operation = .delete).length ≤ 1) (lineNo : Nat)
    (rest : List DiffChunk) :
    customGitDiffFrom none lineNo (run ++ rest) =
      customGitDiffFrom (some (runHunk lineNo run))
        (lineNo + (originalText run).count '\n') rest := by
  have opens : customGitDiffFrom none lineNo (run ++ rest) =
      customGitDiffFrom
        (some { start := lineNo, offset := 0, oldContent := [], newContent := [] }) lineNo
        (run ++ rest) := by
    cases run with
    | nil => exact absurd rfl nonempty
    | cons diff run =>
        rw [List.cons_append, customGitDiffFrom, customGitDiffFrom]
        cases operation : diff.operation with
        | equal => exact absurd operation (changes diff List.mem_cons_self)
        | insert => rfl
        | delete => rfl
  rw [opens, customGitDiffFrom_opened changes once _ fun _ => rfl]
  simp [runHunk]

/-! ## Applying the hunks -/

/-- A content of complete lines gives these lines. -/
theorem contentLines_unlines {lines : List Text} (single : ∀ line ∈ lines, '\n' ∉ line) :
    contentLines (unlines '\n' lines) = lines := by
  have split := splitText_unlines single []
  have empty : splitText [] = [[]] := List.splitOn_nil '\n'
  rw [List.append_nil, empty] at split
  rw [contentLines, split]
  simp

/-- The lines of a hunk in the middle are replaced. -/
theorem patchLines_middle {front old new behind : List Text}
    (single : ∀ line ∈ new, '\n' ∉ line) :
    patchLines (front ++ (old ++ behind)) ⟨front.length + 1, old.length, unlines '\n' new⟩ =
      front ++ (new ++ behind) := by
  have stop : front.length + 1 + old.length - 1 = (front ++ old).length := by
    rw [List.length_append]
    omega
  rw [patchLines, contentLines_unlines single, Nat.add_sub_cancel, stop, List.take_left,
    ← List.append_assoc front, List.drop_left, List.append_assoc]

namespace LineChunks

variable {diffs : List DiffChunk}

/-- The chunks behind a chunk. -/
theorem behind (front : List DiffChunk) {back : List DiffChunk}
    (chunks : LineChunks (front ++ back)) : LineChunks back where
  nonempty := fun diff member => chunks.nonempty diff (List.mem_append_right _ member)
  whole := fun before diff after split =>
    chunks.whole (front ++ before) diff after (by rw [split, List.append_assoc])
  alternate := fun before run after split =>
    chunks.alternate (front ++ before) run after (by rw [split]; simp)

/-- Chunks whose texts are both empty are none. -/
theorem eq_nil (chunks : LineChunks diffs) (noOriginal : originalText diffs = [])
    (noTarget : targetText diffs = []) : diffs = [] := by
  cases diffs with
  | nil => rfl
  | cons diff rest =>
      have nonempty := chunks.nonempty diff List.mem_cons_self
      cases operation : diff.operation <;> simp [operation, nonempty] at noOriginal noTarget

/-- In front of an equal chunk there are complete lines. -/
theorem run_lines {run : List DiffChunk} {equal : DiffChunk} {rest : List DiffChunk}
    (chunks : LineChunks (run ++ equal :: rest)) (isEqual : equal.operation = .equal) :
    (∃ lines, (∀ line ∈ lines, '\n' ∉ line) ∧ originalText run = unlines '\n' lines) ∧
      ∃ lines, (∀ line ∈ lines, '\n' ∉ line) ∧ targetText run = unlines '\n' lines := by
  have equalNonempty := chunks.nonempty equal (by simp)
  induction run with
  | nil => exact ⟨⟨[], by simp, rfl⟩, [], by simp, rfl⟩
  | cons diff run inductionHypothesis =>
      have whole : WholeLines '\n' diff.text := by
        rcases chunks.whole [] diff (run ++ equal :: rest) rfl with whole | ⟨noOriginal, noTarget⟩
        · exact whole
        · -- the equal chunk would be empty
          exfalso
          cases operation : diff.operation
          · have none := noOriginal (by simp [operation])
            simp [originalText_append, isEqual, equalNonempty] at none
          · have none := noOriginal (by simp [operation])
            simp [originalText_append, isEqual, equalNonempty] at none
          · have none := noTarget (by simp [operation])
            simp [targetText_append, isEqual, equalNonempty] at none
      obtain ⟨lines, single, text⟩ := whole.exists_unlines
      have later : LineChunks (run ++ equal :: rest) := LineChunks.behind [diff] chunks
      obtain ⟨⟨old, oldSingle, oldText⟩, new, newSingle, newText⟩ := inductionHypothesis later
      have both {more : List Text} (moreSingle : ∀ line ∈ more, '\n' ∉ line) :
          ∀ line ∈ lines ++ more, '\n' ∉ line := fun line member =>
        (List.mem_append.mp member).elim (single line) (moreSingle line)
      constructor
      · by_cases inserted : diff.operation = .insert
        · exact ⟨old, oldSingle, by simpa [inserted] using oldText⟩
        · exact ⟨lines ++ old, both oldSingle, by simp [inserted, text, oldText]⟩
      · by_cases deleted : diff.operation = .delete
        · exact ⟨new, newSingle, by simpa [deleted] using newText⟩
        · exact ⟨lines ++ new, both newSingle, by simp [deleted, text, newText]⟩

end LineChunks

/-- Chunks begin with a run up to the first equal one. -/
theorem run_cases (diffs : List DiffChunk) :
    (∀ diff ∈ diffs, diff.operation ≠ .equal) ∨
      ∃ run equal rest, diffs = run ++ equal :: rest ∧
        (∀ diff ∈ run, diff.operation ≠ .equal) ∧ equal.operation = .equal := by
  induction diffs with
  | nil => exact .inl (by simp)
  | cons diff diffs inductionHypothesis =>
      by_cases isEqual : diff.operation = .equal
      · exact .inr ⟨[], diff, diffs, rfl, by simp, isEqual⟩
      · rcases inductionHypothesis with changes | ⟨run, equal, rest, rfl, changes, equalFound⟩
        · exact .inl (List.forall_mem_cons.mpr ⟨isEqual, changes⟩)
        · exact .inr ⟨diff :: run, equal, rest, rfl, List.forall_mem_cons.mpr ⟨isEqual, changes⟩,
            equalFound⟩

/-- Without an equal chunk all chunks are the last run. -/
theorem lastRun_changes {diffs : List DiffChunk}
    (changes : ∀ diff ∈ diffs, diff.operation ≠ .equal) : lastRun diffs = diffs :=
  List.rtakeWhile_eq_self_iff.mpr (by simpa using changes)

theorem lastRun_behind (run : List DiffChunk) {equal : DiffChunk}
    (isEqual : equal.operation = .equal) (rest : List DiffChunk) :
    lastRun (run ++ equal :: rest) = lastRun rest := by
  rw [lastRun, lastRun, List.rtakeWhile, List.rtakeWhile, List.reverse_append, List.reverse_cons,
    List.append_assoc, List.takeWhile_append]
  split
  · rename_i all
    rw [List.singleton_append, List.takeWhile_cons_of_neg (by simp [isEqual]), List.append_nil,
      (List.takeWhile_prefix _).eq_of_length all]
  · rfl

/-- The hunk changes more than white space. -/
def DiffHunk.changes (hunk : DiffHunk) : Bool :=
  withoutWhite hunk.oldContent ≠ withoutWhite hunk.newContent

/-- No hunk ends in front of the file. -/
theorem customGitDiff2_eq (differences : List DiffChunk) :
    customGitDiff2 differences =
      (customGitDiffFrom none 1 differences).filter DiffHunk.changes := by
  refine List.filter_congr fun hunk _ => ?_
  have inside : ¬ ((hunk.start : Int) + hunk.offset - 1 < -1) := by omega
  simp [inside, DiffHunk.changes]

/-- The hunk of a run in front of an equal chunk replaces its lines, up to white space. -/
theorem applyHunks_run {run : List DiffChunk} {old new : List Text}
    (oldText : originalText run = unlines '\n' old) (oldSingle : ∀ line ∈ old, '\n' ∉ line)
    (newText : targetText run = unlines '\n' new) (newSingle : ∀ line ∈ new, '\n' ∉ line)
    (front behind : List Text) :
    ∃ kept : List Text,
      applyHunks (front ++ (old ++ behind))
          ([runHunk (front.length + 1) run].filter DiffHunk.changes) = front ++ (kept ++ behind) ∧
        withoutWhite kept.flatten = withoutWhite (targetText run) := by
  have offset : (originalText run).count '\n' = old.length := by
    have count : (unlines '\n' old ++ []).count '\n' = old.length :=
      count_unlines oldSingle (by simp)
    rwa [List.append_nil, ← oldText] at count
  by_cases changes : (runHunk (front.length + 1) run).changes = true
  · refine ⟨new, ?_, by rw [newText, withoutWhite_unlines]⟩
    rw [List.filter_cons_of_pos changes]
    simp only [List.filter_nil, applyHunks, List.foldr_cons, List.foldr_nil, runHunk, offset,
      newText, patchLines_middle newSingle]
  · refine ⟨old, ?_, ?_⟩
    · rw [List.filter_cons_of_neg (by simpa using changes)]
      rfl
    · have same : withoutWhite (originalText run) = withoutWhite (targetText run) := by
        by_contra other
        exact changes (decide_eq_true other)
      rw [← same, oldText, withoutWhite_unlines]

theorem applyHunks_append (lines : List Text) (first second : List DiffHunk) :
    applyHunks lines (first ++ second) = applyHunks (applyHunks lines second) first :=
  List.foldr_append ..

/-- The hunks of a run, of an equal chunk and of what is behind it. -/
theorem customGitDiffFrom_group {run : List DiffChunk} {equal : DiffChunk}
    {rest : List DiffChunk} (chunks : LineChunks (run ++ equal :: rest))
    (changes : ∀ diff ∈ run, diff.operation ≠ .equal) (isEqual : equal.operation = .equal)
    (lineNo : Nat) :
    (customGitDiffFrom none lineNo (run ++ equal :: rest)).filter DiffHunk.changes =
      [runHunk lineNo run].filter DiffHunk.changes ++
        (customGitDiffFrom none
          (lineNo + (originalText run).count '\n' + equal.text.count '\n') rest).filter
            DiffHunk.changes := by
  by_cases empty : run = []
  · have unchanged : (runHunk lineNo []).changes = false := by
      simp [DiffHunk.changes, runHunk, originalText, targetText]
    subst empty
    simp [customGitDiffFrom, isEqual, unchanged, length_splitText, originalText]
  · rw [customGitDiffFrom_run empty changes (chunks.alternate [] run _ rfl changes).1,
      customGitDiffFrom, isEqual, length_splitText, Nat.add_sub_cancel, ← List.filter_append]
    rfl

/-- Up to the last equal chunk the result is the target, and behind it the original. -/
theorem applyHunks_from (bound : Nat) {diffs : List DiffChunk} (short : diffs.length < bound)
    (chunks : LineChunks diffs) (front : List Text) :
    ∃ (patched : List Text) (settled : Text),
      applyHunks (front ++ splitText (originalText diffs))
          ((customGitDiffFrom none (front.length + 1) diffs).filter DiffHunk.changes) =
        front ++ patched ∧
      withoutWhite patched.flatten = settled ++ withoutWhite (originalText (lastRun diffs)) ∧
      withoutWhite (targetText diffs) = settled ++ withoutWhite (targetText (lastRun diffs)) := by
  induction bound generalizing diffs front with
  | zero => omega
  | succ bound inductionHypothesis =>
  rcases run_cases diffs with changes | ⟨run, equal, rest, rfl, changes, isEqual⟩
  · -- no hunk is returned
    have none : customGitDiffFrom none (front.length + 1) diffs = [] := by
      by_cases empty : diffs = []
      · rw [empty, customGitDiffFrom]
      · have opened := customGitDiffFrom_run empty changes
          (chunks.alternate [] diffs [] (by simp) changes).1 (front.length + 1) []
        rwa [List.append_nil, customGitDiffFrom] at opened
    refine ⟨splitText (originalText diffs), [], ?_, ?_, ?_⟩
    · rw [none]
      rfl
    · rw [lastRun_changes changes, withoutWhite_splitText, List.nil_append]
    · rw [lastRun_changes changes, List.nil_append]
  · obtain ⟨⟨old, oldSingle, oldText⟩, new, newSingle, newText⟩ := chunks.run_lines isEqual
    have restChunks : LineChunks (equal :: rest) := chunks.behind run
    have laterChunks : LineChunks rest := restChunks.behind [equal]
    obtain ⟨equalSingle, lastSingle⟩ := splitLines_single '\n' equal.text
    have equalText := splitLines_text '\n' equal.text
    generalize (splitLines '\n' equal.text).1 = same at equalSingle equalText
    generalize (splitLines '\n' equal.text).2 = last at lastSingle equalText
    have oldCount : (originalText run).count '\n' = old.length := by
      have count : (unlines '\n' old ++ []).count '\n' = old.length :=
        count_unlines oldSingle (by simp)
      rwa [List.append_nil, ← oldText] at count
    have equalCount : equal.text.count '\n' = same.length := by
      rw [← equalText, count_unlines equalSingle lastSingle]
    have lineNo : front.length + 1 + old.length + same.length =
        (front ++ (old ++ same)).length + 1 := by
      simp only [List.length_append]
      omega
    -- the lines behind the complete ones of the equal chunk
    obtain ⟨patched, settled, applied, patchedText, targetRest⟩ :
        ∃ (patched : List Text) (settled : Text),
          applyHunks ((front ++ (old ++ same)) ++ splitText (last ++ originalText rest))
              ((customGitDiffFrom none ((front ++ (old ++ same)).length + 1) rest).filter
                DiffHunk.changes) = (front ++ (old ++ same)) ++ patched ∧
            withoutWhite patched.flatten =
              withoutWhite last ++ settled ++ withoutWhite (originalText (lastRun rest)) ∧
            withoutWhite (targetText rest) =
              settled ++ withoutWhite (targetText (lastRun rest)) := by
      by_cases complete : last = []
      · have shorter : rest.length < bound := by
          simp only [List.length_append, List.length_cons] at short
          omega
        rw [complete]
        exact inductionHypothesis shorter laterChunks (front ++ (old ++ same))
      · have atEnd : rest = [] := by
          rcases restChunks.whole [] equal rest rfl with whole | ⟨noOriginal, noTarget⟩
          · have isLast := List.getLast?_eq_getLast_of_ne_nil
              (restChunks.nonempty equal List.mem_cons_self)
            rw [whole _ isLast, ← equalText] at isLast
            exact absurd ((getLast?_unlines_iff same lastSingle).mp isLast).2 complete
          · exact laterChunks.eq_nil (noOriginal (by simp [isEqual])) (noTarget (by simp [isEqual]))
        subst atEnd
        refine ⟨[last], [], ?_, by simp [originalText, lastRun, List.rtakeWhile, withoutWhite], rfl⟩
        rw [customGitDiffFrom, originalText, List.flatMap_nil, List.append_nil, splitText,
          List.splitOn_eq_singleton lastSingle]
        rfl
    obtain ⟨kept, replaced, keptText⟩ := applyHunks_run oldText oldSingle newText newSingle front
      (same ++ patched)
    refine ⟨kept ++ (same ++ patched),
      withoutWhite (targetText run) ++ withoutWhite equal.text ++ settled, ?_, ?_, ?_⟩
    · rw [customGitDiffFrom_group chunks changes isEqual, oldCount, equalCount, lineNo,
        applyHunks_append, originalText_append, originalText_cons, if_neg (by simp [isEqual]),
        oldText, ← equalText, List.append_assoc (unlines '\n' same), splitText_unlines oldSingle,
        splitText_unlines equalSingle]
      simp only [List.append_assoc] at applied ⊢
      rw [applied, replaced]
    · rw [lastRun_behind run isEqual]
      simp only [List.flatten_append, withoutWhite_append, keptText, patchedText, ← equalText,
        withoutWhite_unlines, List.append_assoc]
    · rw [lastRun_behind run isEqual, targetText_append, targetText_cons,
        if_neg (by simp [isEqual])]
      simp only [withoutWhite_append, targetRest, List.append_assoc]

/-- All hunks together give the target up to white space if and only if only white space changes
behind the last equal chunk. -/
theorem applyHunks_customGitDiff2_iff {original target : List Text} {diffs : List DiffChunk}
    (originalLines : EditorLines original) (diff : LineDiff original target diffs) :
    withoutWhite (joinLines (applyHunks original (customGitDiff2 diffs))) =
        withoutWhite (joinLines target) ↔
      LastRunWhite diffs := by
  obtain ⟨patched, settled, applied, patchedText, targetRest⟩ :=
    applyHunks_from _ (Nat.lt_succ_self _) diff.toLineChunks []
  have lines : splitText (originalText diffs) = original := by
    rw [diff.original_eq, splitText_joinLines originalLines]
  rw [List.nil_append, List.length_nil, Nat.zero_add, List.nil_append, lines] at applied
  rw [customGitDiff2_eq, applied, withoutWhite_joinLines, patchedText, ← diff.target_eq, targetRest,
    List.append_cancel_left_eq, LastRunWhite]

/-- The diff of two different lines. -/
theorem lineDiff_replacement {old new : Text} (oldNonempty : old ≠ []) (newNonempty : new ≠ []) :
    LineDiff [old] [new] [⟨.delete, old⟩, ⟨.insert, new⟩] where
  nonempty := by simp [oldNonempty, newNonempty]
  whole := by
    rintro (_ | ⟨first, _ | ⟨second, before⟩⟩) diff after split
    · simp only [List.nil_append, List.cons.injEq] at split
      obtain ⟨rfl, rfl⟩ := split
      exact .inr ⟨fun _ => by simp [originalText], fun kept => absurd rfl kept⟩
    · simp only [List.cons_append, List.nil_append, List.cons.injEq] at split
      obtain ⟨-, rfl, rfl⟩ := split
      exact .inr ⟨fun _ => rfl, fun _ => rfl⟩
    · simp at split
  alternate := fun before run after split _ => by
    have part : run.Sublist [⟨.delete, old⟩, ⟨.insert, new⟩] := by
      rw [split, List.append_assoc]
      exact (List.sublist_append_left run after).trans (List.sublist_append_right before _)
    exact ⟨(part.filter _).length_le, (part.filter _).length_le⟩
  original_eq := by simp [originalText, joinLines]
  target_eq := by simp [targetText, joinLines]

/-- A change of white space in the last line. -/
theorem applyHunks_white :
    EditorLines ["a".toList] ∧
      LineDiff ["a".toList] ["a ".toList] [⟨.delete, "a".toList⟩, ⟨.insert, "a ".toList⟩] ∧
      (withoutWhite (joinLines (applyHunks ["a".toList]
          (customGitDiff2 [⟨.delete, "a".toList⟩, ⟨.insert, "a ".toList⟩]))) =
          withoutWhite (joinLines ["a ".toList]) ↔
        LastRunWhite [⟨.delete, "a".toList⟩, ⟨.insert, "a ".toList⟩]) := by
  have lines : EditorLines ["a".toList] := ⟨by decide, by decide⟩
  have diff : LineDiff ["a".toList] ["a ".toList]
      [⟨.delete, "a".toList⟩, ⟨.insert, "a ".toList⟩] :=
    lineDiff_replacement (by decide) (by decide)
  exact ⟨lines, diff, applyHunks_customGitDiff2_iff lines diff⟩

/-- The change of the last line is lost. -/
theorem lastChange_lost :
    EditorLines ["a".toList] ∧ EditorLines ["b".toList] ∧
      LineDiff ["a".toList] ["b".toList] [⟨.delete, "a".toList⟩, ⟨.insert, "b".toList⟩] ∧
      ¬ withoutWhite (joinLines (applyHunks ["a".toList]
          (customGitDiff2 [⟨.delete, "a".toList⟩, ⟨.insert, "b".toList⟩]))) =
        withoutWhite (joinLines ["b".toList]) :=
  ⟨⟨by decide, by decide⟩, ⟨by decide, by decide⟩,
    lineDiff_replacement (by decide) (by decide), by decide⟩

end MergeBot
