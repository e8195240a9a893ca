import MergeBot.Editor.Store

/-!
# Accepting a side of a block

The lines of a side are joined to one text and split again. Only for a side without any line this
makes a difference, a blank line: `applyResolution_side_iff`.
-/

namespace MergeBot

open Foundation

/-! ## Sides of a block -/

/-- The sides of a block that the user can accept. -/
inductive BlockSide
  | ours
  | theirs
  | base
deriving DecidableEq, Repr

namespace BlockSide

def type : BlockSide → ResolutionType
  | ours => .ours
  | theirs => .theirs
  | base => .base

/-- Only a block with a base marker has a base. -/
def IsIn (block : MarkerLineNos) : BlockSide → Prop
  | base => block.baseMarkerLineNo ≠ -1
  | _ => True

/-- The marker lines around a side. -/
def markers (block : MarkerLineNos) : BlockSide → Int × Int
  | ours =>
      (block.ourMarkerLineNo,
        if block.baseMarkerLineNo = -1 then block.theirMarkerLineNo else block.baseMarkerLineNo)
  | theirs => (block.theirMarkerLineNo, block.endMarkerLineNo)
  | base => (block.baseMarkerLineNo, block.theirMarkerLineNo)

/-- The lines strictly between the marker lines around a side. -/
def lines (original : List Text) (block : MarkerLineNos) (side : BlockSide) : List Text :=
  (original.take ((side.markers block).2 - 1).toNat).drop (side.markers block).1.toNat

end BlockSide

/-- The guards of `getArraySlice` pass for lines between two others. -/
theorem getArraySlice_between {original : List Text} {first second : Int} (positive : 1 ≤ first)
    (inside : second ≤ original.length) :
    getArraySlice original first (second - 2) =
      (original.take (second - 1).toNat).drop first.toNat := by
  rw [getArraySlice]
  split
  · -- no line is in between
    refine (List.drop_eq_nil_iff.mpr ?_).symm
    rw [List.length_take]
    omega
  · have stop : (second - 2 + 1).toNat = (second - 1).toNat := by omega
    rw [stop]

/-- The slices that the editor takes are the sides of the block. -/
theorem slice_eq_lines {original : List Text} {block : MarkerLineNos}
    (found : block ∈ findConflictBlocks original) :
    ourSlice original block = BlockSide.ours.lines original block ∧
      theirSlice original block = BlockSide.theirs.lines original block ∧
      (block.baseMarkerLineNo ≠ -1 →
        baseSlice original block = BlockSide.base.lines original block) := by
  obtain ⟨ours, base, theirs, end_, -, -⟩ := mem_findConflictBlocks found
  have baseInside : block.baseMarkerLineNo ≠ -1 →
      1 ≤ block.baseMarkerLineNo ∧ block.baseMarkerLineNo ≤ original.length := fun has =>
    ⟨(base.resolve_left has).1.positive, (base.resolve_left has).1.le_length⟩
  have minusTwo (number : Int) : number - 1 - 1 = number - 2 := by omega
  refine ⟨?_, ?_, fun has => ?_⟩
  · have second : (if block.baseMarkerLineNo = -1 then block.theirMarkerLineNo
        else block.baseMarkerLineNo) ≤ original.length := by
      split
      · exact theirs.le_length
      · rename_i has
        exact (baseInside has).2
    rw [ourSlice, Int.sub_add_cancel, minusTwo]
    exact getArraySlice_between ours.positive second
  · rw [theirSlice, Int.add_sub_cancel, minusTwo]
    exact getArraySlice_between theirs.positive end_.le_length
  · rw [baseSlice, Int.add_sub_cancel, minusTwo]
    exact getArraySlice_between (baseInside has).1 theirs.le_length

/-- Lines survive joining and splitting unless there are none. -/
theorem splitText_joinLines_iff {lines : List Text} (single : ∀ line ∈ lines, '\n' ∉ line) :
    splitText (joinLines lines) = lines ↔ lines ≠ [] := by
  constructor
  · rintro same rfl
    exact absurd same (by decide)
  · intro nonempty
    exact splitText_joinLines ⟨nonempty, single⟩

/-! ## An opened file -/

section Libraries

variable (sha256 : Text → Text) (diffLines : Text → Text → List DiffChunk)

/-- A content has been opened in the editor, and since then no other one. -/
def FileOpened (content : Text) (store : EditorStore) : Prop :=
  ∃ (before : EditorStore) (steps : List EditorStep), (∀ step ∈ steps, step.opens = false) ∧
    Steps (editorMove sha256 diffLines) (before.initResolveEditorContent sha256 content) steps store

variable {sha256 diffLines}

/-- What the editor knows about the opened file. -/
theorem FileOpened.sameFile {content : Text} {store : EditorStore}
    (opened : FileOpened sha256 diffLines content store) :
    EditorStore.SameFile (EditorStore.initResolveEditorContent sha256 content {}) store := by
  obtain ⟨before, steps, stays, run⟩ := opened
  have within : run.Within fun _ step => step.opens = false :=
    .of_labels run fun _ step member => stays step member
  refine Steps.invariant_within (fun {store step next} same stays moved => ?_) within
    ⟨rfl, rfl, rfl⟩
  exact same.trans ((EditorStore.editorMove_keeps moved).1 stays)

/-! ## Accepting a side -/

/-- The choice of a side of a block. -/
def BlockSide.payload (side : BlockSide) (id index : Nat) : ApplyPayload where
  id
  index
  type := side.type
  fingerIndex := index

/-- The lines of a side that is accepted are joined and split. -/
theorem applyResolution_side {store : EditorStore} {id index : Nat} {interval : BlockInterval}
    (located : store.locationMapping.lookup id = some interval) {block : MarkerLineNos}
    (found : store.conflictBlocks[index]? = some block)
    (inFile : block ∈ findConflictBlocks store.original) {side : BlockSide}
    (isIn : side.IsIn block) :
    store.applyResolution diffLines (side.payload id index) =
      some (store.resolveConflictBlock diffLines interval
        (joinLines (side.lines store.original block))).refreshRemainingConflictBlocks := by
  obtain ⟨ours, theirs, base⟩ := slice_eq_lines inFile
  obtain ⟨-, -, theirMarker, -, -, -⟩ := mem_findConflictBlocks inFile
  have positive := theirMarker.positive
  cases side with
  | ours =>
      simp [EditorStore.applyResolution, BlockSide.payload, BlockSide.type, located, found, ours]
  | theirs =>
      simp [EditorStore.applyResolution, BlockSide.payload, BlockSide.type, located, found, theirs]
  | base =>
      have noTheirs : block.theirMarkerLineNo ≠ -1 := by omega
      have noBase : block.baseMarkerLineNo ≠ -1 := isIn
      simp [EditorStore.applyResolution, BlockSide.payload, BlockSide.type, located, found, noBase,
        noTheirs, base noBase]

variable (diffLines) in
/-- The lines after a block has been resolved. -/
theorem rtModified_resolveConflictBlock (interval : BlockInterval) (resolution : Text)
    (store : EditorStore) :
    (store.resolveConflictBlock diffLines interval resolution).rtModified =
      store.rtModified.take interval.start ++ splitText resolution ++
        store.rtModified.drop (interval.stop + 1) := by
  obtain ⟨saPatches, -, same⟩ := EditorStore.newVersion_eq diffLines
    (store.rtModified.take interval.start ++ splitText resolution ++
      store.rtModified.drop (interval.stop + 1)) store
  rw [EditorStore.resolveConflictBlock, same]

/-- A side that is accepted replaces the lines of its block by exactly its own lines if and only
if it has any. -/
theorem applyResolution_side_iff {content : Text} {store : EditorStore}
    (opened : FileOpened sha256 diffLines content store) {index : Nat} {block : MarkerLineNos}
    (found : (findConflictBlocks (splitText content))[index]? = some block) {side : BlockSide}
    (isIn : side.IsIn block) {interval : BlockInterval}
    (located : store.originalFingerprints[index]?.bind
      (findSpecificFingerprint sha256 store.rtModified) = some interval) (id : Nat) :
    (∃ tested next,
        editorMove sha256 diffLines store (.testIsApplicable (side.payload id index)) =
          some tested ∧
        editorMove sha256 diffLines tested (.applyResolution (side.payload id index)) =
          some next ∧
        next.rtModified = store.rtModified.take interval.start ++
          side.lines (splitText content) block ++ store.rtModified.drop (interval.stop + 1)) ↔
      side.lines (splitText content) block ≠ [] := by
  have same := opened.sameFile
  have original : store.original = splitText content := same.original.symm
  have blocks : store.conflictBlocks = findConflictBlocks (splitText content) :=
    same.conflictBlocks.symm
  have inFile := List.mem_of_getElem? found
  have single : ∀ line ∈ side.lines (splitText content) block, '\n' ∉ line := fun line member =>
    (editorLines_splitText content).single line
      (List.mem_of_mem_take (List.mem_of_mem_drop member))
  let mapped : EditorStore :=
    { store with locationMapping := (id, interval) :: store.locationMapping }
  have tests : editorMove sha256 diffLines store (.testIsApplicable (side.payload id index)) =
      some mapped := by
    have other : side.type ≠ .patch := by cases side <;> simp [BlockSide.type]
    simp [editorMove, EditorStore.testIsApplicable, BlockSide.payload, other, located, mapped]
  have lookup : mapped.locationMapping.lookup id = some interval := by simp [mapped]
  have applies : mapped.applyResolution diffLines (side.payload id index) = some _ :=
    applyResolution_side lookup (by rw [← found, ← blocks]) (by rwa [original]) isIn
  have lines := rtModified_resolveConflictBlock diffLines interval
    (joinLines (side.lines mapped.original block)) mapped
  have mappedOriginal : mapped.original = splitText content := original
  rw [mappedOriginal] at lines applies
  rw [← splitText_joinLines_iff single]
  constructor
  · rintro ⟨tested, next, testedEq, nextEq, replaced⟩
    obtain rfl := Option.some.inj (tests.symm.trans testedEq)
    obtain rfl := Option.some.inj (applies.symm.trans nextEq)
    have same := lines.symm.trans replaced
    rwa [List.append_cancel_right_eq, List.append_cancel_left_eq] at same
  · intro survives
    rw [survives] at lines
    exact ⟨mapped, _, tests, applies, lines⟩

end Libraries

/-- A block of one line on our side and none on theirs. -/
def oneSidedContent : Text :=
  "x\n<<<<<<<\na\n=======\n>>>>>>>\ny".toList

/-- The editor with this block. -/
def oneSidedStore : EditorStore :=
  EditorStore.initResolveEditorContent id oneSidedContent {}

theorem oneSidedStore_opened : FileOpened id (fun _ _ => []) oneSidedContent oneSidedStore :=
  ⟨{}, [], by simp, .refl⟩

/-- Our side of the block. -/
theorem applyResolution_ourSide :
    FileOpened id (fun _ _ => []) oneSidedContent oneSidedStore ∧
      (findConflictBlocks (splitText oneSidedContent))[0]? = some ⟨2, -1, 4, 5⟩ ∧
      oneSidedStore.originalFingerprints[0]?.bind
        (findSpecificFingerprint id oneSidedStore.rtModified) = some ⟨1, 4⟩ ∧
      ((∃ tested next,
          editorMove id (fun _ _ => []) oneSidedStore
            (.testIsApplicable (BlockSide.ours.payload 0 0)) = some tested ∧
          editorMove id (fun _ _ => []) tested
            (.applyResolution (BlockSide.ours.payload 0 0)) = some next ∧
          next.rtModified = oneSidedStore.rtModified.take 1 ++
            BlockSide.ours.lines (splitText oneSidedContent) ⟨2, -1, 4, 5⟩ ++
              oneSidedStore.rtModified.drop (4 + 1)) ↔
        BlockSide.ours.lines (splitText oneSidedContent) ⟨2, -1, 4, 5⟩ ≠ []) := by
  have found : (findConflictBlocks (splitText oneSidedContent))[0]? = some ⟨2, -1, 4, 5⟩ := by
    decide
  have located : oneSidedStore.originalFingerprints[0]?.bind
      (findSpecificFingerprint id oneSidedStore.rtModified) = some ⟨1, 4⟩ := by decide
  have isIn : BlockSide.ours.IsIn ⟨2, -1, 4, 5⟩ := trivial
  exact ⟨oneSidedStore_opened, found, located,
    applyResolution_side_iff oneSidedStore_opened found isIn located 0⟩

/-- Their side of the block has no line, but a blank one takes its place. -/
theorem theirSide_blankLine :
    FileOpened id (fun _ _ => []) oneSidedContent oneSidedStore ∧
      (findConflictBlocks (splitText oneSidedContent))[0]? = some ⟨2, -1, 4, 5⟩ ∧
      oneSidedStore.originalFingerprints[0]?.bind
        (findSpecificFingerprint id oneSidedStore.rtModified) = some ⟨1, 4⟩ ∧
      ¬ ∃ tested next,
        editorMove id (fun _ _ => []) oneSidedStore
          (.testIsApplicable (BlockSide.theirs.payload 0 0)) = some tested ∧
        editorMove id (fun _ _ => []) tested
          (.applyResolution (BlockSide.theirs.payload 0 0)) = some next ∧
        next.rtModified = oneSidedStore.rtModified.take 1 ++
          BlockSide.theirs.lines (splitText oneSidedContent) ⟨2, -1, 4, 5⟩ ++
            oneSidedStore.rtModified.drop (4 + 1) := by
  refine ⟨oneSidedStore_opened, by decide, by decide, ?_⟩
  rintro ⟨tested, next, tests, applies, replaced⟩
  have made : ((editorMove id (fun _ _ => []) oneSidedStore
      (.testIsApplicable (BlockSide.theirs.payload 0 0))).bind fun tested =>
        (editorMove id (fun _ _ => []) tested
          (.applyResolution (BlockSide.theirs.payload 0 0))).map EditorStore.rtModified) =
      some ["x".toList, [], "y".toList] := by decide
  rw [tests, Option.bind_some, applies, Option.map_some, replaced] at made
  exact absurd made (by decide)

end MergeBot
