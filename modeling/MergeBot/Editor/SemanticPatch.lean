import Mathlib.Data.List.Sort
import MergeBot.Foundation.BlankRuns
import MergeBot.Conflict.EditorMarkers
import MergeBot.Editor.DiffHunks

/-!
# Patches for conflict blocks

`constructSemanticPatch` makes one patch of the hunks that meet a conflict block, and offers the
other hunks as they are. The content of a patch is stitched together from texts of hunks and
from lines in between, with line breaks as separators. `mergedPatch_iff` counts the blank lines
that come and go in this way.
-/

namespace MergeBot

open Foundation

/-- The line behind a patch. -/
def EditorPatch.stop (patch : EditorPatch) : Nat :=
  patch.start + patch.offset

/-- The order of `sort((a, b) => a.start - b.start)`. -/
def ByStart (first second : DiffHunk) : Prop :=
  first.start ≤ second.start

instance : DecidableRel ByStart := fun first second =>
  inferInstanceAs (Decidable (first.start ≤ second.start))

instance : IsTrans DiffHunk ByStart := ⟨fun _ _ _ => Nat.le_trans⟩

instance : Std.Total ByStart := ⟨fun first second => Nat.le_total first.start second.start⟩

/-- The hunk meets the block. -/
def MeetsBlock (block : MarkerLineNos) (hunk : DiffHunk) : Prop :=
  (hunk.start : Int) + hunk.offset - 1 ≥ block.ourMarkerLineNo ∧
    (hunk.start : Int) ≤ block.endMarkerLineNo

instance (block : MarkerLineNos) (hunk : DiffHunk) : Decidable (MeetsBlock block hunk) :=
  inferInstanceAs (Decidable (_ ∧ _))

/-- The hunks that meet the block. -/
def intersectingHunks (hunks : List DiffHunk) (block : MarkerLineNos) : List DiffHunk :=
  hunks.filter (MeetsBlock block)

/-- The lines from a line up to another one, counted from one. -/
def linesBetween (original : List Text) (start stop : Nat) : List Text :=
  (original.take (stop - 1)).drop (start - 1)

/-- Lines in between, if there are any, behind a separator. -/
def stitchLines (original : List Text) (newContent : Text) (lastEnd stop : Nat) : Text :=
  if stop > lastEnd then
    (if newContent.length > 0 then newContent ++ ['\n'] else newContent) ++
      joinLines (linesBetween original lastEnd stop)
  else newContent

/-- The content with the text of a hunk behind it. -/
def stitchText (newContent hunkContent : Text) : Text :=
  (if newContent.length > 0 ∧ ¬ ['\n'] <+: hunkContent then newContent ++ ['\n']
    else newContent) ++ hunkContent

/-- The loop over the hunks, with the content and the line behind the last hunk. -/
def stitchHunks (original : List Text) : Text → Nat → List DiffHunk → Text × Nat
  | newContent, lastEnd, [] => (newContent, lastEnd)
  | newContent, lastEnd, hunk :: rest =>
      stitchHunks original
        (stitchText (stitchLines original newContent lastEnd hunk.start) hunk.newContent)
        (hunk.start + hunk.offset) rest

/-- The patch for a conflict block, if a hunk meets it. -/
def mergedPatch (original : List Text) (hunks : List DiffHunk) (block : MarkerLineNos) :
    Option EditorPatch :=
  match (intersectingHunks hunks block).insertionSort ByStart with
  | [] => none
  | first :: rest =>
      let last := (first :: rest).getLast (List.cons_ne_nil first rest)
      let start := min first.start block.ourMarkerLineNo.toNat
      let offset :=
        max (last.start + last.offset - 1) block.endMarkerLineNo.toNat - start + 1
      let stitched := stitchHunks original [] start (first :: rest)
      some { start, offset,
             newContent := stitchLines original stitched.1 stitched.2 (start + offset) }

/-- The starts of the hunks that meet a block. -/
def consideredStarts (original : List Text) (hunks : List DiffHunk) : List Nat :=
  (findConflictBlocks original).flatMap fun block =>
    (intersectingHunks hunks block).map fun hunk => hunk.start

/-- The patches in the order in which they are made, each with the hunks that it is made of. -/
def semanticParts (original : List Text) (hunks : List DiffHunk) :
    List (EditorPatch × List DiffHunk) :=
  ((findConflictBlocks original).filterMap fun block =>
      (mergedPatch original hunks block).map fun patch =>
        (patch, intersectingHunks hunks block)) ++
    (hunks.filter fun hunk => hunk.start ∉ consideredStarts original hunks).map fun hunk =>
      (hunk.toEditorPatch, [hunk])

/-- The patches that the editor offers, by their starts. -/
def constructSemanticPatch (original : List Text) (hunks : List DiffHunk) : List EditorPatch :=
  ((semanticParts original hunks).map Prod.fst).insertionSort fun first second =>
    first.start ≤ second.start

/-! ## Separators -/

/-- What the content of a patch ends with. -/
inductive StitchState
  | empty
  | afterLines
  | afterHunk
deriving DecidableEq, Repr

/-- Lines behind the text of a hunk are separated from it by a blank line. A single blank line at
the beginning is lost. -/
def linesMarks : StitchState → List Text → StitchState × List (Mark Text)
  | .empty, lines =>
      if lines = [[]] then (.empty, [.dropped]) else (.afterLines, lines.map .both)
  | .afterLines, lines => (.afterLines, lines.map .both)
  | .afterHunk, lines => (.afterLines, .added :: lines.map .both)

/-- Behind lines a hunk loses its first line, if that is blank. Behind another hunk there comes a
blank line, unless the hunk begins with one. -/
def hunkMarks : StitchState → List Text → StitchState × List (Mark Text)
  | .empty, [] => (.empty, [])
  | .empty, lines => (.afterHunk, lines.map .both)
  | .afterLines, [] :: lines => (.afterHunk, .dropped :: lines.map .both)
  | .afterLines, lines => (.afterHunk, lines.map .both)
  | .afterHunk, [] :: lines => (.afterHunk, ([] :: lines).map .both)
  | .afterHunk, lines => (.afterHunk, .added :: lines.map .both)

/-- The lines between and in the hunks up to line `stop`, with the blank lines that are added and
dropped. -/
def stitchMarks (original : List Text) (stop : Nat) :
    StitchState → Nat → List DiffHunk → List (Mark Text)
  | state, lastEnd, [] =>
      if stop > lastEnd then (linesMarks state (linesBetween original lastEnd stop)).2 else []
  | state, lastEnd, hunk :: rest =>
      let before :=
        if hunk.start > lastEnd then linesMarks state (linesBetween original lastEnd hunk.start)
        else (state, [])
      let inside := hunkMarks before.1 (contentLines hunk.newContent)
      before.2 ++ inside.2 ++
        stitchMarks original stop inside.1 (hunk.start + hunk.offset) rest

/-- In the patch for a block, as many blank lines are added as dropped between any two other
lines. -/
def SeparatorsBalance (original : List Text) (hunks : List DiffHunk) (block : MarkerLineNos) :
    Prop :=
  ∀ first ∈ (intersectingHunks hunks block).head?,
    ∀ last ∈ (intersectingHunks hunks block).getLast?,
      Balanced [] 0 (stitchMarks original (max last.stop (block.endMarkerLineNo.toNat + 1)) .empty
        (min first.start block.ourMarkerLineNo.toNat) (intersectingHunks hunks block))

/-- Hunks of a file one behind the other; their contents are whole lines. -/
structure HunksInOrder (hunks : List DiffHunk) : Prop where
  positive : ∀ hunk ∈ hunks, 1 ≤ hunk.start
  inOrder : hunks.Pairwise fun first second => first.stop ≤ second.start
  whole : ∀ hunk ∈ hunks, WholeLines '\n' hunk.newContent

/-! ## The content of a patch -/

/-- The content of a patch as lines; behind the text of a hunk there is another piece, which is
still empty. -/
def Stitched : StitchState → Text → List Text → Prop
  | .empty, content, lines => content = [] ∧ lines = []
  | .afterLines, content, lines => content ≠ [] ∧ splitText content = lines
  | .afterHunk, content, lines => content ≠ [] ∧ splitText content = lines ++ [[]]

theorem splitText_nil : splitText [] = [[]] :=
  List.splitOn_nil '\n'

/-- A line break ends a piece. -/
theorem splitText_break (first second : Text) :
    splitText (first ++ '\n' :: second) = splitText first ++ splitText second :=
  List.splitOn_append_cons_self first second

/-- Only a blank line by itself is joined to nothing. -/
theorem joinLines_eq_nil_iff {lines : List Text} (valid : EditorLines lines) :
    joinLines lines = [] ↔ lines = [[]] := by
  constructor
  · intro empty
    rw [← splitText_joinLines valid, empty, splitText_nil]
  · rintro rfl
    rfl

/-- Lines go into the content with their separator. -/
theorem Stitched.lines {state : StitchState} {content : Text} {done : List Text}
    (stitched : Stitched state content done) {lines : List Text} (valid : EditorLines lines) :
    Stitched (linesMarks state lines).1
      ((if content.length > 0 then content ++ ['\n'] else content) ++ joinLines lines)
      (done ++ written [] (linesMarks state lines).2) := by
  cases state with
  | empty =>
      obtain ⟨rfl, rfl⟩ := stitched
      rw [linesMarks]
      by_cases blank : lines = [[]]
      · simp [blank, Stitched, joinLines, written]
      · have nonempty : joinLines lines ≠ [] := (joinLines_eq_nil_iff valid).not.mpr blank
        simp [blank, Stitched, splitText_joinLines valid, nonempty]
  | afterLines =>
      obtain ⟨nonempty, rfl⟩ := stitched
      have separated : splitText (content ++ '\n' :: joinLines lines) =
          splitText content ++ lines := by rw [splitText_break, splitText_joinLines valid]
      simp [linesMarks, Stitched, List.length_pos_iff.mpr nonempty, separated]
  | afterHunk =>
      obtain ⟨nonempty, pieces⟩ := stitched
      have separated : splitText (content ++ '\n' :: joinLines lines) =
          done ++ [[]] ++ lines := by
        rw [splitText_break, splitText_joinLines valid, pieces]
      simp [linesMarks, Stitched, List.length_pos_iff.mpr nonempty, separated, written]

/-- A line does not begin with a line break. -/
theorem notBreak {c : Char} {line : Text} {lines : List Text}
    (single : ∀ other ∈ (c :: line) :: lines, '\n' ∉ other) : c ≠ '\n' := by
  rintro rfl
  exact single _ List.mem_cons_self List.mem_cons_self

/-- Behind a separator complete lines are pieces, and an empty piece follows. -/
theorem splitText_break_unlines (content : Text) {lines : List Text}
    (single : ∀ line ∈ lines, '\n' ∉ line) :
    splitText (content ++ '\n' :: unlines '\n' lines) = splitText content ++ (lines ++ [[]]) := by
  have pieces := splitText_unlines single []
  rw [List.append_nil, splitText_nil] at pieces
  rw [splitText_break, pieces]

/-- The text of a hunk goes into the content. -/
theorem Stitched.hunk {state : StitchState} {content : Text} {done : List Text}
    (stitched : Stitched state content done) {lines : List Text}
    (single : ∀ line ∈ lines, '\n' ∉ line) :
    Stitched (hunkMarks state lines).1 (stitchText content (unlines '\n' lines))
      (done ++ written [] (hunkMarks state lines).2) := by
  have separated := splitText_break_unlines content single
  cases state with
  | empty =>
      obtain ⟨rfl, rfl⟩ := stitched
      cases lines with
      | nil => exact ⟨rfl, rfl⟩
      | cons line lines =>
          have pieces := splitText_unlines single []
          rw [List.append_nil, splitText_nil] at pieces
          simpa [hunkMarks, Stitched, stitchText, written] using pieces
  | afterLines =>
      obtain ⟨nonempty, rfl⟩ := stitched
      have positive := List.length_pos_iff.mpr nonempty
      cases lines with
      | nil => simpa [hunkMarks, Stitched, stitchText, positive, written] using separated
      | cons line lines =>
          cases line with
          | nil =>
              -- the blank line ends the line in front
              have behind := splitText_break_unlines content
                (List.forall_mem_cons.mp single).2
              simpa [hunkMarks, Stitched, stitchText, positive, written] using behind
          | cons c line =>
              have other := (notBreak single).symm
              simpa [hunkMarks, Stitched, stitchText, positive, other, written] using separated
  | afterHunk =>
      obtain ⟨nonempty, pieces⟩ := stitched
      have positive := List.length_pos_iff.mpr nonempty
      rw [pieces, List.append_assoc] at separated
      cases lines with
      | nil => simpa [hunkMarks, Stitched, stitchText, positive, written] using separated
      | cons line lines =>
          cases line with
          | nil =>
              have behind := splitText_break_unlines content
                (List.forall_mem_cons.mp single).2
              rw [pieces, List.append_assoc] at behind
              simpa [hunkMarks, Stitched, stitchText, positive, written] using behind
          | cons c line =>
              have other := (notBreak single).symm
              simpa [hunkMarks, Stitched, stitchText, positive, other, written] using separated

/-- Lines between two others are lines of the editor, if there are any. -/
theorem editorLines_linesBetween {original : List Text} (single : ∀ line ∈ original, '\n' ∉ line)
    {start stop : Nat} (positive : 1 ≤ start) (inside : start ≤ original.length)
    (before : start < stop) : EditorLines (linesBetween original start stop) where
  nonempty := by
    rw [linesBetween, Ne, List.drop_eq_nil_iff, List.length_take]
    omega
  single := fun line member => single line (List.mem_of_mem_take (List.mem_of_mem_drop member))

/-- Hunks from a line on up to another one, one behind the other. -/
structure HunksBetween (original : List Text) (start stop : Nat) (hunks : List DiffHunk) :
    Prop where
  positive : 1 ≤ start
  behind : ∀ hunk ∈ hunks, start ≤ hunk.start
  inside : ∀ hunk ∈ hunks, hunk.start ≤ original.length
  upTo : start ≤ stop ∧ ∀ hunk ∈ hunks, hunk.stop ≤ stop
  inOrder : hunks.Pairwise fun first second => first.stop ≤ second.start
  whole : ∀ hunk ∈ hunks, WholeLines '\n' hunk.newContent

/-- Hunks from the end of the first one on. -/
theorem HunksBetween.tail {original : List Text} {start stop : Nat} {hunk : DiffHunk}
    {rest : List DiffHunk} (between : HunksBetween original start stop (hunk :: rest)) :
    HunksBetween original hunk.stop stop rest where
  positive := (between.positive.trans (between.behind hunk List.mem_cons_self)).trans
    (Nat.le_add_right _ _)
  behind := (List.pairwise_cons.mp between.inOrder).1
  inside := fun other member => between.inside other (List.mem_cons_of_mem _ member)
  upTo := ⟨between.upTo.2 hunk List.mem_cons_self,
    fun other member => between.upTo.2 other (List.mem_cons_of_mem _ member)⟩
  inOrder := (List.pairwise_cons.mp between.inOrder).2
  whole := fun other member => between.whole other (List.mem_cons_of_mem _ member)

/-- The text of a hunk as complete lines. -/
theorem contentLines_whole {content : Text} (whole : WholeLines '\n' content) :
    (∀ line ∈ contentLines content, '\n' ∉ line) ∧
      content = unlines '\n' (contentLines content) := by
  obtain ⟨lines, single, rfl⟩ := whole.exists_unlines
  rw [contentLines_unlines single]
  exact ⟨single, rfl⟩

/-- Up to a hunk the content gets the lines in between. -/
theorem Stitched.upTo {original : List Text} (single : ∀ line ∈ original, '\n' ∉ line)
    {state : StitchState} {content : Text} {done : List Text}
    (stitched : Stitched state content done) {lastEnd stop : Nat} (positive : 1 ≤ lastEnd)
    (inside : lastEnd < stop → lastEnd ≤ original.length) :
    let marks :=
      if stop > lastEnd then linesMarks state (linesBetween original lastEnd stop) else (state, [])
    Stitched marks.1 (stitchLines original content lastEnd stop) (done ++ written [] marks.2) := by
  by_cases before : stop > lastEnd
  · simp only [stitchLines, if_pos before]
    exact stitched.lines (editorLines_linesBetween single positive (inside before) before)
  · simp only [stitchLines, if_neg before, written, List.append_nil]
    exact stitched

/-- Behind a hunk there are no lines in between yet. -/
theorem hunkMarks_state (state : StitchState) (lines : List Text) :
    (hunkMarks state lines).1 ≠ .afterLines := by
  fun_cases hunkMarks state lines <;> simp

/-- Content that ends with lines, the last of them not blank, is these lines. -/
theorem Stitched.contentLines_lines {state : StitchState} {content : Text} {done lines : List Text}
    {line : Text} (stitched : Stitched (linesMarks state lines).1 content
      (done ++ written [] (linesMarks state lines).2))
    (isLast : lines.getLast? = some line) (nonblank : line ≠ []) :
    contentLines content = done ++ written [] (linesMarks state lines).2 := by
  have several : lines ≠ [[]] := by
    rintro rfl
    simp only [List.getLast?_singleton, Option.some.injEq] at isLast
    exact nonblank isLast.symm
  obtain ⟨front, after, marks⟩ : ∃ front, (linesMarks state lines).1 = .afterLines ∧
      written [] (linesMarks state lines).2 = front ++ lines := by
    cases state with
    | empty => exact ⟨[], by simp [linesMarks, several]⟩
    | afterLines => exact ⟨[], by simp [linesMarks]⟩
    | afterHunk => exact ⟨[[]], by simp [linesMarks, written]⟩
  rw [after] at stitched
  rw [contentLines, stitched.2, if_neg]
  rw [marks, ← List.append_assoc, List.getLast?_append, isLast]
  simp [nonblank]

/-- The content of a patch is what its marks write, if it does not end with a blank line. -/
theorem contentLines_stitch {original : List Text} (single : ∀ line ∈ original, '\n' ∉ line)
    {stop lastEnd : Nat} {hunks : List DiffHunk}
    (between : HunksBetween original lastEnd stop hunks) {state : StitchState} {content : Text}
    {done : List Text} (stitched : Stitched state content done) (fresh : state ≠ .afterLines)
    (ends : (stitchHunks original content lastEnd hunks).2 < stop →
      (stitchHunks original content lastEnd hunks).2 ≤ original.length ∧
        ∃ line ≠ [], (linesBetween original (stitchHunks original content lastEnd hunks).2
          stop).getLast? = some line) :
    contentLines (stitchLines original (stitchHunks original content lastEnd hunks).1
        (stitchHunks original content lastEnd hunks).2 stop) =
      done ++ written [] (stitchMarks original stop state lastEnd hunks) := by
  induction hunks generalizing lastEnd state content done with
  | nil =>
      simp only [stitchHunks] at ends ⊢
      have last := stitched.upTo single between.positive (fun before => (ends before).1)
      rw [stitchMarks]
      by_cases before : stop > lastEnd
      · obtain ⟨-, line, nonblank, isLast⟩ := ends before
        simp only [if_pos before] at last ⊢
        exact last.contentLines_lines isLast nonblank
      · rw [stitchLines, if_neg before, if_neg before]
        simp only [written, List.append_nil]
        cases state with
        | empty =>
            obtain ⟨rfl, rfl⟩ := stitched
            rfl
        | afterLines => exact absurd rfl fresh
        | afterHunk => simp [contentLines, stitched.2]
  | cons hunk rest inductionHypothesis =>
      have start := between.behind hunk List.mem_cons_self
      have inside := between.inside hunk List.mem_cons_self
      obtain ⟨textSingle, text⟩ := contentLines_whole (between.whole hunk List.mem_cons_self)
      have before : Stitched _ (stitchLines original content lastEnd hunk.start) _ :=
        stitched.upTo single between.positive fun _ => by omega
      have next := before.hunk textSingle
      rw [← text] at next
      rw [stitchHunks] at ends ⊢
      have later := inductionHypothesis between.tail next (hunkMarks_state _ _) ends
      simp only [stitchMarks, written_append, ← List.append_assoc]
      exact later

/-! ## Applying hunks one by one -/

@[simp]
theorem wanted_linesMarks (state : StitchState) (lines : List Text) :
    wanted [] (linesMarks state lines).2 = lines := by
  fun_cases linesMarks state lines <;> simp_all [wanted]

@[simp]
theorem wanted_hunkMarks (state : StitchState) (lines : List Text) :
    wanted [] (hunkMarks state lines).2 = lines := by
  fun_cases hunkMarks state lines <;> simp_all [wanted]

/-- Lines up to a line, and those from there up to another one. -/
theorem take_linesBetween (original : List Text) {start stop : Nat} (before : start ≤ stop) :
    original.take (start - 1) ++ linesBetween original start stop = original.take (stop - 1) := by
  have first : (original.take (stop - 1)).take (start - 1) = original.take (start - 1) := by
    rw [List.take_take, Nat.min_eq_left (by omega)]
  rw [linesBetween, ← first, List.take_append_drop]

/-- The lines between two others, if the second one is behind the first. -/
theorem take_linesBetween_if (original : List Text) (state : StitchState) {start stop : Nat}
    (before : start ≤ stop) :
    original.take (start - 1) ++ wanted []
        (if stop > start then linesMarks state (linesBetween original start stop)
          else (state, [])).2 = original.take (stop - 1) := by
  split
  · rw [wanted_linesMarks, take_linesBetween original before]
  · have same : start = stop := by omega
    rw [wanted, List.append_nil, same]

/-- Applied one by one, hunks make the lines that are wanted. -/
theorem applyHunks_between {original : List Text} {start stop : Nat} {hunks : List DiffHunk}
    (between : HunksBetween original start stop hunks) (state : StitchState) :
    applyHunks original hunks =
      original.take (start - 1) ++ (wanted [] (stitchMarks original stop state start hunks) ++
        original.drop (stop - 1)) := by
  induction hunks generalizing start state with
  | nil =>
      have upTo := take_linesBetween_if original state between.upTo.1
      have marks : stitchMarks original stop state start [] =
          (if stop > start then linesMarks state (linesBetween original start stop)
            else (state, [])).2 := by
        rw [stitchMarks]
        split <;> rfl
      rw [marks, ← List.append_assoc, upTo, List.take_append_drop]
      rfl
  | cons hunk rest inductionHypothesis =>
      have here := between.behind hunk List.mem_cons_self
      have inside := between.inside hunk List.mem_cons_self
      have positive := between.positive
      have upTo := between.upTo.2 hunk List.mem_cons_self
      have stopEq : hunk.start + hunk.offset = hunk.stop := rfl
      simp only [stitchMarks, wanted_append, wanted_hunkMarks, stopEq]
      generalize hunkMarks _ (contentLines hunk.newContent) = marks
      have later := inductionHypothesis between.tail marks.1
      have kept : (applyHunks original rest).take (hunk.start - 1) =
          original.take (hunk.start - 1) := by
        rw [later, List.take_append_of_le_length, List.take_take, Nat.min_eq_left (by omega)]
        rw [List.length_take]
        omega
      have behind : (applyHunks original rest).drop (hunk.stop - 1) =
          wanted [] (stitchMarks original stop marks.1 hunk.stop rest) ++
            original.drop (stop - 1) := by
        rw [later]
        by_cases fits : hunk.stop - 1 ≤ original.length
        · exact List.drop_left' (by rw [List.length_take, Nat.min_eq_left fits])
        · -- nothing is behind a hunk that reaches beyond the end
          have last : rest = [] := by
            refine List.eq_nil_iff_forall_not_mem.mpr fun other member => ?_
            have otherInside := between.inside other (List.mem_cons_of_mem _ member)
            have otherBehind := between.tail.behind other member
            omega
          subst last
          have all : original.take (hunk.stop - 1) = original :=
            List.take_of_length_le (by omega)
          have whole : applyHunks original [] = original := rfl
          rw [whole, all] at later
          rw [List.self_eq_append_right.mp later, List.append_nil]
          exact List.drop_eq_nil_iff.mpr (by rw [List.length_take]; omega)
      have applied : applyHunks original (hunk :: rest) =
          patchLines (applyHunks original rest) hunk.toEditorPatch := rfl
      rw [applied, patchLines, kept, stopEq, behind, ← take_linesBetween_if original state here]
      simp only [List.append_assoc]

/-! ## The patch for a block -/

/-- The hunks that meet a block, as they are. -/
theorem HunksInOrder.intersecting {hunks : List DiffHunk} (ordered : HunksInOrder hunks)
    (block : MarkerLineNos) : HunksInOrder (intersectingHunks hunks block) where
  positive := fun hunk member => ordered.positive hunk (List.mem_of_mem_filter member)
  inOrder := ordered.inOrder.filter _
  whole := fun hunk member => ordered.whole hunk (List.mem_of_mem_filter member)

/-- Hunks in order are sorted by their starts. -/
theorem HunksInOrder.insertionSort {hunks : List DiffHunk} (ordered : HunksInOrder hunks) :
    hunks.insertionSort ByStart = hunks :=
  List.Pairwise.insertionSort_eq (ordered.inOrder.imp fun before =>
    (Nat.le_add_right _ _).trans before)

/-- The last line behind which the loop arrives. -/
theorem stitchHunks_end (original : List Text) (content : Text) (lastEnd : Nat)
    (hunks : List DiffHunk) {last : DiffHunk} (isLast : hunks.getLast? = some last) :
    (stitchHunks original content lastEnd hunks).2 = last.stop := by
  induction hunks generalizing content lastEnd with
  | nil => simp at isLast
  | cons hunk rest inductionHypothesis =>
      rw [stitchHunks]
      cases rest with
      | nil =>
          obtain rfl : hunk = last := by simpa using isLast
          rfl
      | cons next rest => exact inductionHypothesis _ _ (by simpa using isLast)

/-- What the patch for a block is. -/
theorem mergedPatch_eq {original : List Text} {hunks : List DiffHunk} {block : MarkerLineNos}
    {patch : EditorPatch} (made : mergedPatch original hunks block = some patch) :
    ∃ first rest last, (intersectingHunks hunks block).insertionSort ByStart = first :: rest ∧
      (first :: rest).getLast? = some last ∧
      patch.start = min first.start block.ourMarkerLineNo.toNat ∧
      patch.offset = max (last.stop - 1) block.endMarkerLineNo.toNat - patch.start + 1 ∧
      patch.newContent = stitchLines original
        (stitchHunks original [] patch.start (first :: rest)).1
        (stitchHunks original [] patch.start (first :: rest)).2 patch.stop := by
  rw [mergedPatch] at made
  generalize (intersectingHunks hunks block).insertionSort ByStart = meeting at made
  cases meeting with
  | nil => simp at made
  | cons first rest =>
      simp only [Option.some.injEq] at made
      subst made
      exact ⟨first, rest, (first :: rest).getLast (List.cons_ne_nil first rest), rfl,
        List.getLast?_eq_getLast_of_ne_nil _, rfl, rfl, rfl⟩

/-- Patches begin in a line of the file if the hunks do. -/
theorem constructSemanticPatch_positive {original : List Text} {hunks : List DiffHunk}
    (positive : ∀ hunk ∈ hunks, 1 ≤ hunk.start) :
    ∀ patch ∈ constructSemanticPatch original hunks, 1 ≤ patch.start := by
  intro patch member
  obtain ⟨part, inParts, rfl⟩ := List.mem_map.mp ((List.mem_insertionSort _).mp member)
  rcases List.mem_append.mp inParts with fromBlock | fromHunk
  · obtain ⟨block, found, ofBlock⟩ := List.mem_filterMap.mp fromBlock
    obtain ⟨patch, made, rfl⟩ := Option.map_eq_some_iff.mp ofBlock
    obtain ⟨first, rest, last, sorted, -, start, -⟩ := mergedPatch_eq made
    have inSorted : first ∈ (intersectingHunks hunks block).insertionSort ByStart := by
      simp [sorted]
    have inHunks := List.mem_of_mem_filter ((List.mem_insertionSort _).mp inSorted)
    have firstPositive := positive first inHunks
    have oursPositive := (mem_findConflictBlocks found).ours.positive
    have begins : 1 ≤ patch.start := by omega
    exact begins
  · obtain ⟨hunk, left, rfl⟩ := List.mem_map.mp fromHunk
    exact positive hunk (List.mem_of_mem_filter left)

/-- No hunk ends behind the last one. -/
theorem HunksInOrder.stop_le_last {hunks : List DiffHunk} (ordered : HunksInOrder hunks)
    {last : DiffHunk} (isLast : hunks.getLast? = some last) :
    ∀ hunk ∈ hunks, hunk.stop ≤ last.stop := by
  obtain ⟨front, rfl⟩ := List.getLast?_eq_some_iff.mp isLast
  intro hunk member
  rcases List.mem_append.mp member with inFront | atEnd
  · have before := (List.pairwise_append.mp ordered.inOrder).2.2 hunk inFront last (by simp)
    exact before.trans (Nat.le_add_right _ _)
  · rw [List.mem_singleton.mp atEnd]

/-- No hunk begins in front of the first one. -/
theorem HunksInOrder.first_le_start {first : DiffHunk} {rest : List DiffHunk}
    (ordered : HunksInOrder (first :: rest)) :
    ∀ hunk ∈ first :: rest, first.start ≤ hunk.start := by
  intro hunk member
  rcases List.mem_cons.mp member with rfl | later
  · exact Nat.le_refl _
  · exact (Nat.le_add_right _ _).trans ((List.pairwise_cons.mp ordered.inOrder).1 hunk later)

/-- The last of some lines up to a line. -/
theorem getLast?_linesBetween {original : List Text} {start index : Nat} {line : Text}
    (here : original[index]? = some line) (before : start ≤ index + 1) :
    (linesBetween original start (index + 2)).getLast? = some line := by
  have inside : index < original.length := (List.getElem?_eq_some_iff.mp here).1
  have upTo : original.take (index + 1) = original.take index ++ [line] := by
    rw [List.take_add_one, here, Option.toList_some]
  have stop : index + 2 - 1 = index + 1 := rfl
  rw [linesBetween, stop, upTo, List.drop_append_of_le_length, List.getLast?_concat]
  rw [List.length_take]
  omega

/-- The patch for a block makes the same lines as the hunks that meet the block if and only if
the separators balance. -/
theorem mergedPatch_iff {original : List Text} (single : ∀ line ∈ original, '\n' ∉ line)
    {hunks : List DiffHunk} (ordered : HunksInOrder hunks) {block : MarkerLineNos}
    (found : block ∈ findConflictBlocks original) {patch : EditorPatch}
    (made : mergedPatch original hunks block = some patch) :
    patchLines original patch = applyHunks original (intersectingHunks hunks block) ↔
      SeparatorsBalance original hunks block := by
  obtain ⟨first, rest, last, meeting, isLast, start, offset, content⟩ :=
    mergedPatch_eq made
  have meetingOrdered := ordered.intersecting block
  rw [meetingOrdered.insertionSort] at meeting
  have meets : ∀ hunk ∈ first :: rest, MeetsBlock block hunk := fun hunk member => by
    rw [← meeting, intersectingHunks, List.mem_filter] at member
    exact of_decide_eq_true member.2
  rw [meeting] at meetingOrdered
  obtain ⟨ours, -, -, ⟨index, line, endEq, here, begins⟩, oursFirst, -⟩ :=
    mem_findConflictBlocks found
  have oursPositive := ours.positive
  have inside : index < original.length := (List.getElem?_eq_some_iff.mp here).1
  have endNat : block.endMarkerLineNo.toNat = index + 1 := by omega
  have positive := meetingOrdered.positive first List.mem_cons_self
  have lastStop := meetingOrdered.stop_le_last isLast
  have firstStop : first.start ≤ first.stop := Nat.le_add_right _ _
  have upToLast := lastStop first List.mem_cons_self
  have stop : patch.stop = max last.stop (index + 2) := by
    rw [EditorPatch.stop]
    omega
  have between : HunksBetween original patch.start patch.stop (first :: rest) :=
    { positive := by omega
      behind := fun hunk member => by
        have behind := meetingOrdered.first_le_start hunk member
        omega
      inside := fun hunk member => by
        have before := (meets hunk member).2
        omega
      upTo := ⟨Nat.le_add_right _ _, fun hunk member => by
        have before := lastStop hunk member
        omega⟩
      inOrder := meetingOrdered.inOrder
      whole := meetingOrdered.whole }
  have ends : (stitchHunks original [] patch.start (first :: rest)).2 = last.stop :=
    stitchHunks_end original [] patch.start (first :: rest) isLast
  have written : contentLines patch.newContent =
      written [] (stitchMarks original patch.stop .empty patch.start (first :: rest)) := by
    have nothing : Stitched .empty [] [] := ⟨rfl, rfl⟩
    rw [content]
    refine contentLines_stitch single between nothing (by simp) fun before => ?_
    rw [ends] at before ⊢
    have stopEnd : patch.stop = index + 2 := by omega
    rw [stopEnd]
    refine ⟨by omega, line, ?_, getLast?_linesBetween here (by omega)⟩
    rintro rfl
    exact ConflictMark.text_ne_nil _ (List.prefix_nil.mp begins)
  have balance : SeparatorsBalance original hunks block ↔
      Balanced [] 0 (stitchMarks original patch.stop .empty patch.start (first :: rest)) := by
    rw [SeparatorsBalance, meeting, isLast, endNat, stop, start]
    simp
  have stopEq : patch.start + patch.offset = patch.stop := rfl
  rw [balance, meeting, applyHunks_between between .empty, patchLines, written, stopEq,
    List.append_assoc, List.append_cancel_left_eq, List.append_cancel_right_eq,
    written_eq_wanted_iff]

/-- A conflict block of one line on each side. -/
def smallBlock : List Text :=
  ["<<<<<<<".toList, "a".toList, "=======".toList, "b".toList, ">>>>>>>".toList]

/-- A hunk for a whole block. -/
theorem mergedPatch_wholeBlock :
    (∀ line ∈ smallBlock, '\n' ∉ line) ∧ HunksInOrder [⟨⟨1, 5, "x\n".toList⟩, []⟩] ∧
      ⟨1, -1, 3, 5⟩ ∈ findConflictBlocks smallBlock ∧
      mergedPatch smallBlock [⟨⟨1, 5, "x\n".toList⟩, []⟩] ⟨1, -1, 3, 5⟩ =
        some ⟨1, 5, "x\n".toList⟩ ∧
      (patchLines smallBlock ⟨1, 5, "x\n".toList⟩ =
          applyHunks smallBlock
            (intersectingHunks [⟨⟨1, 5, "x\n".toList⟩, []⟩] ⟨1, -1, 3, 5⟩) ↔
        SeparatorsBalance smallBlock [⟨⟨1, 5, "x\n".toList⟩, []⟩] ⟨1, -1, 3, 5⟩) := by
  have single : ∀ line ∈ smallBlock, '\n' ∉ line := by decide
  have ordered : HunksInOrder [⟨⟨1, 5, "x\n".toList⟩, []⟩] :=
    ⟨by simp, by simp, by simp [WholeLines]⟩
  have found : (⟨1, -1, 3, 5⟩ : MarkerLineNos) ∈ findConflictBlocks smallBlock := by decide
  have made : mergedPatch smallBlock [⟨⟨1, 5, "x\n".toList⟩, []⟩] ⟨1, -1, 3, 5⟩ =
      some ⟨1, 5, "x\n".toList⟩ := by decide
  exact ⟨single, ordered, found, made, mergedPatch_iff single ordered found made⟩

/-- Behind a hunk in the middle of a block there is an additional blank line. -/
theorem mergedPatch_blankLine :
    HunksInOrder [⟨⟨2, 1, "x\n".toList⟩, "a\n".toList⟩] ∧
      ⟨1, -1, 3, 5⟩ ∈ findConflictBlocks smallBlock ∧
      ∃ patch, mergedPatch smallBlock [⟨⟨2, 1, "x\n".toList⟩, "a\n".toList⟩] ⟨1, -1, 3, 5⟩ =
          some patch ∧
        ¬ patchLines smallBlock patch = applyHunks smallBlock
          (intersectingHunks [⟨⟨2, 1, "x\n".toList⟩, "a\n".toList⟩] ⟨1, -1, 3, 5⟩) := by
  refine ⟨⟨by simp, by simp, by simp [WholeLines]⟩, by decide,
    ⟨1, 5, "<<<<<<<\nx\n\n=======\nb\n>>>>>>>".toList⟩, by decide, by decide⟩

end MergeBot
