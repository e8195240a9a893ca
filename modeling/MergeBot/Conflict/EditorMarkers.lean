import MergeBot.Conflict.EditorBlocks

/-!
# Where the editor's markers stand

The line numbers of a block that `findConflictBlocks` finds are those of marker lines, the end
marker is the last of them (`mem_findConflictBlocks`), and the blocks follow one another
(`findConflictBlocks_pairwise`).
-/

namespace MergeBot

open Foundation

/-- The line with this number, counted from one, begins with the marker. -/
def MarkerAt (mark : ConflictMark) (lines : List Text) (number : Int) : Prop :=
  ∃ (index : Nat) (line : Text), number = index + 1 ∧ lines[index]? = some line ∧ mark.Begins line

namespace MarkerAt

variable {mark : ConflictMark} {lines : List Text} {number : Int}

theorem append (found : MarkerAt mark lines number) (rest : List Text) :
    MarkerAt mark (lines ++ rest) number := by
  obtain ⟨index, line, rfl, here, begins⟩ := found
  have inside : index < lines.length := (List.getElem?_eq_some_iff.mp here).1
  exact ⟨index, line, rfl, by rw [List.getElem?_append_left inside, here], begins⟩

/-- The line behind the ones that have been read. -/
theorem of_line {done : List Text} {line : Text} (begins : mark.Begins line) (rest : List Text) :
    MarkerAt mark (done ++ line :: rest) (done.length + 1) :=
  ⟨done.length, line, rfl, by simp, begins⟩

theorem positive (found : MarkerAt mark lines number) : 1 ≤ number := by
  obtain ⟨index, line, rfl, -, -⟩ := found
  omega

theorem le_length (found : MarkerAt mark lines number) : number ≤ lines.length := by
  obtain ⟨index, line, rfl, here, -⟩ := found
  have inside : index < lines.length := (List.getElem?_eq_some_iff.mp here).1
  omega

end MarkerAt

/-- The markers of a block of the lines. -/
structure BlockMarkers (lines : List Text) (block : MarkerLineNos) : Prop where
  ours : MarkerAt .ours lines block.ourMarkerLineNo
  base : block.baseMarkerLineNo = -1 ∨
    MarkerAt .base lines block.baseMarkerLineNo ∧ block.baseMarkerLineNo < block.endMarkerLineNo
  theirs : MarkerAt .theirs lines block.theirMarkerLineNo
  end_ : MarkerAt .end_ lines block.endMarkerLineNo
  oursFirst : block.ourMarkerLineNo < block.endMarkerLineNo
  theirsFirst : block.theirMarkerLineNo < block.endMarkerLineNo

/-- What the loop has seen since it found a block that ends in line `low`. -/
structure Seen (low : Nat) (done : List Text) (markers : MarkerLineNos) : Prop where
  ours : markers.ourMarkerLineNo = -1 ∨
    MarkerAt .ours done markers.ourMarkerLineNo ∧ (low : Int) < markers.ourMarkerLineNo
  base : markers.baseMarkerLineNo = -1 ∨ MarkerAt .base done markers.baseMarkerLineNo
  theirs : markers.theirMarkerLineNo = -1 ∨ MarkerAt .theirs done markers.theirMarkerLineNo
  closed : markers.ourMarkerLineNo = -1 → markers.theirMarkerLineNo = -1

namespace Seen

variable {low : Nat} {done : List Text} {markers : MarkerLineNos}

/-- Nothing has been seen behind a block. -/
theorem nothing (done : List Text) : Seen done.length done {} :=
  ⟨.inl rfl, .inl rfl, .inl rfl, fun _ => rfl⟩

theorem append (seen : Seen low done markers) (rest : List Text) :
    Seen low (done ++ rest) markers where
  ours := seen.ours.imp_right fun found => ⟨found.1.append rest, found.2⟩
  base := seen.base.imp_right fun found => found.append rest
  theirs := seen.theirs.imp_right fun found => found.append rest
  closed := seen.closed

end Seen

/-- The blocks behind the lines that have been read have their markers, and they begin behind
line `low`. -/
theorem mem_findConflictBlocksFrom {low : Nat} {done rest : List Text} {markers : MarkerLineNos}
    (seen : Seen low done markers) (bounded : low ≤ done.length) {block : MarkerLineNos}
    (member : block ∈ findConflictBlocksFrom markers done.length rest) :
    BlockMarkers (done ++ rest) block ∧ (low : Int) < block.ourMarkerLineNo := by
  induction rest generalizing low done markers with
  | nil => simp [findConflictBlocksFrom] at member
  | cons line rest inductionHypothesis =>
      have length : done.length + 1 = (done ++ [line]).length := by simp
      have whole : done ++ line :: rest = done ++ [line] ++ rest := by simp
      have seenLine := seen.append [line]
      have boundedLine : low ≤ (done ++ [line]).length := by
        rw [← length]
        omega
      rw [findConflictBlocksFrom, length] at member
      rw [whole]
      split at member
      · rename_i begins
        have here : MarkerAt .ours (done ++ [line]) (done.length + 1) := .of_line begins []
        have next : Seen low (done ++ [line])
            { markers with ourMarkerLineNo := (done.length : Int) + 1 } :=
          ⟨.inr ⟨here, by simp only; omega⟩, seenLine.base, seenLine.theirs,
            fun unopened => by simp only at unopened; omega⟩
        exact inductionHypothesis next boundedLine member
      · split at member
        · rename_i begins
          have here : MarkerAt .base (done ++ [line]) (done.length + 1) := .of_line begins.1 []
          have next : Seen low (done ++ [line])
              { markers with baseMarkerLineNo := (done.length : Int) + 1 } :=
            ⟨seenLine.ours, .inr here, seenLine.theirs, seenLine.closed⟩
          exact inductionHypothesis next boundedLine member
        · split at member
          · rename_i begins
            have here : MarkerAt .theirs (done ++ [line]) (done.length + 1) :=
              .of_line begins.1 []
            have opened := begins.2
            have next : Seen low (done ++ [line])
                { markers with theirMarkerLineNo := (done.length : Int) + 1 } :=
              ⟨seenLine.ours, seenLine.base, .inr here,
                fun unopened => by simp only at unopened; omega⟩
            exact inductionHypothesis next boundedLine member
          · split at member
            · rename_i begins
              rcases List.mem_cons.mp member with rfl | member
              · -- the block that ends in this line
                have here : MarkerAt .end_ (done ++ [line] ++ rest) (done.length + 1) :=
                  (MarkerAt.of_line begins.1 []).append rest
                have theirs := seen.theirs.resolve_left (by omega)
                have theirsOld := theirs.le_length
                have notClosed : markers.ourMarkerLineNo ≠ -1 := fun unopened => by
                  have none := seen.closed unopened
                  omega
                obtain ⟨ours, behind⟩ := seen.ours.resolve_left notClosed
                have oursOld := ours.le_length
                refine ⟨⟨(ours.append [line]).append rest, ?_, (theirs.append [line]).append rest,
                  here, by simp only; omega, by simp only; omega⟩, behind⟩
                refine seen.base.imp_right fun base => ⟨(base.append [line]).append rest, ?_⟩
                have baseOld := base.le_length
                simp only
                omega
              · obtain ⟨found, later⟩ :=
                  inductionHypothesis (Seen.nothing (done ++ [line])) (Nat.le_refl _) member
                exact ⟨found, by omega⟩
            · exact inductionHypothesis seenLine boundedLine member

/-- A block that is found has its markers in the lines. -/
theorem mem_findConflictBlocks {lines : List Text} {block : MarkerLineNos}
    (member : block ∈ findConflictBlocks lines) : BlockMarkers lines block :=
  (mem_findConflictBlocksFrom (Seen.nothing []) (Nat.le_refl _) member).1

/-- The blocks behind the lines that have been read follow one another. -/
theorem findConflictBlocksFrom_pairwise (markers : MarkerLineNos) (done rest : List Text) :
    (findConflictBlocksFrom markers done.length rest).Pairwise fun first second =>
      first.endMarkerLineNo < second.ourMarkerLineNo := by
  induction rest generalizing done markers with
  | nil => exact List.Pairwise.nil
  | cons line rest inductionHypothesis =>
      have length : done.length + 1 = (done ++ [line]).length := by simp
      rw [findConflictBlocksFrom, length]
      split_ifs
      · exact inductionHypothesis _ (done ++ [line])
      · exact inductionHypothesis _ (done ++ [line])
      · exact inductionHypothesis _ (done ++ [line])
      · refine List.pairwise_cons.mpr ⟨fun block member => ?_,
          inductionHypothesis _ (done ++ [line])⟩
        have behind := (mem_findConflictBlocksFrom (Seen.nothing (done ++ [line]))
          (Nat.le_refl _) member).2
        simp only [← length] at behind
        simpa using behind
      · exact inductionHypothesis _ (done ++ [line])

/-- The blocks follow one another. -/
theorem findConflictBlocks_pairwise (lines : List Text) :
    (findConflictBlocks lines).Pairwise fun first second =>
      first.endMarkerLineNo < second.ourMarkerLineNo :=
  findConflictBlocksFrom_pairwise {} [] lines

end MergeBot
