import MergeBot.Conflict.Scanner

/-!
# Files of context lines and marked blocks

The scanner looks at start and end marker lines only. A file whose other lines
begin with neither of these markers has exactly the blocks that are written in
it: `constructConflictFile_pieces`.
-/

namespace MergeBot

open Foundation

/-- Lines without an end marker stay in the open block. -/
theorem scanLines_inside {lines : List Text}
    (inside : ∀ line ∈ lines, ¬ ConflictMark.end_.Begins line) (opened : List Text) (index : Nat)
    (rest : List Text) :
    scanLines (some opened) index (lines ++ rest) =
      scanLines (some (opened ++ lines)) index rest := by
  induction lines generalizing opened with
  | nil => simp
  | cons line lines ih =>
      have stays := inside line List.mem_cons_self
      simp only [List.cons_append, scanLines, stays, if_false]
      rw [ih (fun other member => inside other (List.mem_cons_of_mem _ member))]
      simp

/-- A start marker line, lines without an end marker and an end marker line are
one block. -/
theorem scanLines_closed {startLine endLine : Text} {body : List Text}
    (starts : ConflictMark.ours.Begins startLine)
    (inside : ∀ line ∈ body, ¬ ConflictMark.end_.Begins line)
    (ends : ConflictMark.end_.Begins endLine) (index : Nat) (rest : List Text) :
    scanLines none index (startLine :: body ++ [endLine] ++ rest) =
      { index := index + 1, conflictRange := unlines '\n' (startLine :: body ++ [endLine]) } ::
        scanLines none (index + 1) rest := by
  have shape : startLine :: body ++ [endLine] ++ rest =
      startLine :: (body ++ endLine :: rest) := by simp
  rw [shape, scanLines, if_pos starts, scanLines_inside inside, scanLines, if_pos ends]
  simp

/-- A line that begins neither with the start marker nor with the end marker. -/
structure PlainLine (line : Text) : Prop where
  single : '\n' ∉ line
  notStart : ¬ ConflictMark.ours.Begins line
  notEnd : ¬ ConflictMark.end_.Begins line

/-- A line shorter than the markers is plain. -/
theorem PlainLine.of_short {line : Text} (single : '\n' ∉ line) (short : line.length < 7) :
    PlainLine line where
  single := single
  notStart starts := absurd starts.length_le (by simpa using short)
  notEnd ends := absurd ends.length_le (by simpa using short)

/-- A block between a start marker line and an end marker line. Nothing is said
about separators in its body. -/
structure MarkedBlock where
  startLine : Text
  body : List Text
  endLine : Text

namespace MarkedBlock

/-- The lines of the block, markers included. -/
def lines (block : MarkedBlock) : List Text :=
  block.startLine :: block.body ++ [block.endLine]

/-- The text from the first character of the start marker line through the line
break of the end marker line. -/
def text (block : MarkedBlock) : Text := unlines '\n' block.lines

structure WellFormed (block : MarkedBlock) : Prop where
  startSingle : '\n' ∉ block.startLine
  starts : ConflictMark.ours.Begins block.startLine
  body : ∀ line ∈ block.body, PlainLine line
  endSingle : '\n' ∉ block.endLine
  ends : ConflictMark.end_.Begins block.endLine

theorem WellFormed.single {block : MarkedBlock} (wellFormed : block.WellFormed) :
    ∀ line ∈ block.lines, '\n' ∉ line := by
  intro line member
  have places : line = block.startLine ∨ line ∈ block.body ∨ line = block.endLine := by
    simpa [lines, or_assoc] using member
  rcases places with rfl | inBody | rfl
  · exact wellFormed.startSingle
  · exact (wellFormed.body line inBody).single
  · exact wellFormed.endSingle

end MarkedBlock

/-- A piece of a file: a context line or a marked block. -/
inductive MarkedPiece
  | context (line : Text)
  | block (block : MarkedBlock)

namespace MarkedPiece

def lines : MarkedPiece → List Text
  | .context line => [line]
  | .block marked => marked.lines

def WellFormed : MarkedPiece → Prop
  | .context line => PlainLine line
  | .block marked => marked.WellFormed

def block? : MarkedPiece → Option MarkedBlock
  | .context _ => none
  | .block marked => some marked

theorem WellFormed.single {piece : MarkedPiece} (wellFormed : piece.WellFormed) :
    ∀ line ∈ piece.lines, '\n' ∉ line := by
  cases piece with
  | context line =>
      intro other member
      obtain rfl : other = line := by simpa [lines] using member
      exact PlainLine.single wellFormed
  | block marked => exact MarkedBlock.WellFormed.single wellFormed

end MarkedPiece

/-- The automaton reports the blocks of the pieces in order, numbered on. -/
theorem scanLines_pieces {pieces : List MarkedPiece}
    (wellFormed : ∀ piece ∈ pieces, piece.WellFormed) (index : Nat) :
    scanLines none index (pieces.flatMap MarkedPiece.lines) =
      (pieces.filterMap MarkedPiece.block?).mapIdx fun place block =>
        { index := index + place + 1, conflictRange := block.text } := by
  induction pieces generalizing index with
  | nil => rfl
  | cons piece rest ih =>
      have pieceFormed := wellFormed piece List.mem_cons_self
      have later (index : Nat) :=
        ih (fun other member => wellFormed other (List.mem_cons_of_mem _ member)) index
      cases piece with
      | context line =>
          have plain : ¬ ConflictMark.ours.Begins line := PlainLine.notStart pieceFormed
          simp [MarkedPiece.lines, MarkedPiece.block?, List.filterMap_cons, scanLines, plain, later]
      | block marked =>
          have closed := scanLines_closed pieceFormed.starts
            (fun line member => (pieceFormed.body line member).notEnd) pieceFormed.ends index
            (rest.flatMap MarkedPiece.lines)
          rw [List.flatMap_cons, MarkedPiece.lines, MarkedBlock.lines, closed, later]
          simp [MarkedPiece.block?, MarkedBlock.text, MarkedBlock.lines, Nat.add_assoc,
            Nat.add_comm 1]

/-- The scanner returns one block for each marked block, in file order, numbered
from one, with the text from marker to marker. -/
theorem constructConflictFile_pieces {pieces : List MarkedPiece}
    (wellFormed : ∀ piece ∈ pieces, piece.WellFormed) :
    constructConflictFile (unlines '\n' (pieces.flatMap MarkedPiece.lines)) =
      some ((pieces.filterMap MarkedPiece.block?).mapIdx fun place block =>
        { index := place + 1, conflictRange := block.text }) := by
  have single : ∀ line ∈ pieces.flatMap MarkedPiece.lines, '\n' ∉ line := by
    intro line member
    obtain ⟨piece, pieceMember, inPiece⟩ := List.mem_flatMap.mp member
    exact (wellFormed piece pieceMember).single line inPiece
  rw [constructConflictFile_unlines single, scanLines_pieces wellFormed]
  simp only [Nat.zero_add]

/-- A block without a separator, with an empty and a short line. -/
def shortBlock : MarkedBlock where
  startLine := "<<<<<<< HEAD".toList
  body := [[], "=".toList]
  endLine := ">>>>>>>".toList

theorem shortBlock_wellFormed : shortBlock.WellFormed where
  startSingle := by decide
  starts := by decide
  body line member := by
    rcases List.mem_pair.mp (show line ∈ [[], "=".toList] from member) with rfl | rfl <;>
      exact .of_short (by decide) (by decide)
  endSingle := by decide
  ends := by decide

/-- The block between two context lines, one of them empty. -/
def shortPieces : List MarkedPiece :=
  [.context "a".toList, .block shortBlock, .context []]

theorem shortPieces_wellFormed : ∀ piece ∈ shortPieces, piece.WellFormed := by
  intro piece member
  simp only [shortPieces, List.mem_cons, List.not_mem_nil, or_false] at member
  rcases member with rfl | rfl | rfl
  · exact PlainLine.of_short (by decide) (by decide)
  · exact shortBlock_wellFormed
  · exact PlainLine.of_short (by decide) (by decide)

/-- The scanner's result for these pieces. -/
theorem shortPieces_found :
    constructConflictFile (unlines '\n' (shortPieces.flatMap MarkedPiece.lines)) =
      some ((shortPieces.filterMap MarkedPiece.block?).mapIdx fun place block =>
        { index := place + 1, conflictRange := block.text }) :=
  constructConflictFile_pieces shortPieces_wellFormed

end MergeBot
