import MergeBot.Foundation.Runs
import MergeBot.Editor.Fingerprints
import MergeBot.Editor.SemanticPatch

/-!
# The store of the diff editor

The fields that hold data of the opened file, and the mutations and actions that change them. An
operation that throws is not possible, and changes nothing. The hash and the line diff are
libraries, and stand as parameters. `editorMove` is the labelled transition system of the
operations, in any order.
-/

namespace MergeBot

open Foundation

/-- The resolutions that can be chosen for a block. -/
inductive ResolutionType
  | ours
  | theirs
  | base
  | sa
  | ml
  | git
  | dl
  | patch
deriving DecidableEq, Repr

/-- A choice. `locationMapping` knows it by its identity `id`. -/
structure ApplyPayload where
  id : Nat
  index : Nat
  type : ResolutionType
  fingerIndex : Nat
deriving DecidableEq, Repr

/-- An answer of the deep learning service for a block. -/
structure DLResolution where
  resolvable : Bool
  resolution : Text
deriving DecidableEq, Repr

/-- The state of the module; on the stacks the last entry is the top. -/
structure EditorStore where
  original : List Text := [[]]
  modified : List Text := [[]]
  rtModified : List Text := [[]]
  undoStack : List Text := []
  redoStack : List Text := []
  originalFingerprints : List Text := [[]]
  conflictBlocks : List MarkerLineNos := []
  locationMapping : List (Nat × BlockInterval) := []
  mlResolutions : List Text := [[]]
  dlPending : Bool := true
  dlResolutions : List DLResolution := [{ resolvable := false, resolution := [] }]
  saNopatches : Bool := true
  saResolutions : List Text := [[]]
  saMerged : List Text := []
  saPatches : List EditorPatch := []
  saConstPatches : List EditorPatch := []
  remainingConflictBlocks : List MarkerLineNos := []
deriving DecidableEq, Repr

/-! ## Sections of a block -/

/-- The lines of our side of a block. -/
def ourSlice (original : List Text) (block : MarkerLineNos) : List Text :=
  let ourEnd :=
    if block.baseMarkerLineNo = -1 then block.theirMarkerLineNo else block.baseMarkerLineNo
  getArraySlice original (block.ourMarkerLineNo - 1 + 1) (ourEnd - 1 - 1)

/-- The lines of their side of a block. -/
def theirSlice (original : List Text) (block : MarkerLineNos) : List Text :=
  getArraySlice original (block.theirMarkerLineNo + 1 - 1) (block.endMarkerLineNo - 1 - 1)

/-- The lines of the base of a block. -/
def baseSlice (original : List Text) (block : MarkerLineNos) : List Text :=
  getArraySlice original (block.baseMarkerLineNo + 1 - 1) (block.theirMarkerLineNo - 1 - 1)

namespace EditorStore

section Libraries

variable (sha256 : Text → Text) (diffLines : Text → Text → List DiffChunk)

/-! ## Mutations -/

/-- The patches between the edited and the merged lines. -/
def semanticPatches (startLine : Int) (store : EditorStore) : List EditorPatch :=
  constructSemanticPatch store.rtModified
    (customGitDiff2 (diffLines (joinLines store.rtModified) (joinLines store.saMerged)) startLine)

/-- The patches are made anew, if there are any. -/
def rtDiff (startLine : Int) (store : EditorStore) : EditorStore :=
  if store.saPatches.length > 0 then
    { store with saPatches := store.semanticPatches diffLines startLine }
  else store

def initResolveEditorContent (conflict : Text) (store : EditorStore) : EditorStore :=
  let lines := splitText conflict
  let conflictBlocks := findConflictBlocks lines
  { store with
    conflictBlocks
    originalFingerprints := conflictBlocks.map fun block =>
      getBlockHash sha256 lines (block.ourMarkerLineNo - 1) (block.endMarkerLineNo - 1)
    locationMapping := []
    original := lines
    modified := lines
    rtModified := lines
    remainingConflictBlocks := conflictBlocks }

def refreshRemainingConflictBlocks (store : EditorStore) : EditorStore :=
  { store with remainingConflictBlocks := findConflictBlocks store.rtModified }

/-- An edit by hand; `modified` stays behind. -/
def saveModifiedContent (newContent : Text) (line : Int) (store : EditorStore) : EditorStore :=
  rtDiff diffLines line { store with rtModified := splitText newContent }

def saveVersion (oldVer : List Text) (store : EditorStore) : EditorStore :=
  { store with undoStack := store.undoStack ++ [joinLines oldVer], redoStack := [] }

/-- A commit passes one payload on, so that `newline` has always its default. -/
def updateModifiedContent (lines : List Text) (store : EditorStore) : EditorStore :=
  rtDiff diffLines (-1) { store with rtModified := lines, modified := lines }

/-- A new version of the lines; the old one can be undone. -/
def newVersion (lines : List Text) (store : EditorStore) : EditorStore :=
  updateModifiedContent diffLines lines (store.saveVersion store.rtModified)

def resolveConflictBlock (interval : BlockInterval) (resolution : Text) (store : EditorStore) :
    EditorStore :=
  store.newVersion diffLines (store.rtModified.take interval.start ++ splitText resolution ++
    store.rtModified.drop (interval.stop + 1))

def applyPatch (patch : EditorPatch) (store : EditorStore) : EditorStore :=
  store.newVersion diffLines (patchLines store.rtModified patch)

/-- A resolution without the line break at its end. -/
def withoutLineBreak (resolution : Text) : Text :=
  if resolution.getLast? = some '\n' then resolution.dropLast else resolution

/-- A choice is applied. The branch for `git` reads a variable before it is there, and throws. -/
def applyResolution (payload : ApplyPayload) (store : EditorStore) : Option EditorStore :=
  match payload.type with
  | .patch => do
      let patch ← store.saPatches[payload.index]?
      return (store.applyPatch diffLines patch).refreshRemainingConflictBlocks
  | .ours => do
      let interval ← store.locationMapping.lookup payload.id
      let block ← store.conflictBlocks[payload.index]?
      return (store.resolveConflictBlock diffLines interval
        (joinLines (ourSlice store.original block))).refreshRemainingConflictBlocks
  | .theirs => do
      let interval ← store.locationMapping.lookup payload.id
      let block ← store.conflictBlocks[payload.index]?
      return (store.resolveConflictBlock diffLines interval
        (joinLines (theirSlice store.original block))).refreshRemainingConflictBlocks
  | .base => do
      let interval ← store.locationMapping.lookup payload.id
      let block ← store.conflictBlocks[payload.index]?
      if block.baseMarkerLineNo = -1 ∨ block.theirMarkerLineNo = -1 then none
      else
        return (store.resolveConflictBlock diffLines interval
          (joinLines (baseSlice store.original block))).refreshRemainingConflictBlocks
  | .sa => do
      let interval ← store.locationMapping.lookup payload.id
      let resolution ← store.saResolutions[payload.index]?
      return (store.resolveConflictBlock diffLines interval
        resolution).refreshRemainingConflictBlocks
  | .ml => do
      let interval ← store.locationMapping.lookup payload.id
      let resolution ← store.mlResolutions[payload.index]?
      return (store.resolveConflictBlock diffLines interval
        resolution).refreshRemainingConflictBlocks
  | .git => none
  | .dl => do
      let interval ← store.locationMapping.lookup payload.id
      -- two early returns, with a warning
      if store.dlPending then return store
      else
        let res ← store.dlResolutions[payload.index]?
        if res.resolvable = false then return store
        else
          let resolution := withoutLineBreak res.resolution
          let stripped := { store with
            dlResolutions := store.dlResolutions.set payload.index { res with resolution } }
          return (stripped.resolveConflictBlock diffLines interval
            resolution).refreshRemainingConflictBlocks

/-- A version comes back, with patches of its own. -/
def restoreVersion (text : Text) (store : EditorStore) : EditorStore :=
  let restored : EditorStore :=
    { store with rtModified := splitText text, modified := splitText text }
  { restored with saPatches := restored.semanticPatches diffLines (-1) }

/-- The text on top of the undo stack comes back; `none` if the stack is empty. -/
def doUndoChanges (current : Text) (store : EditorStore) : Option EditorStore := do
  let text ← store.undoStack.getLast?
  return restoreVersion diffLines text
    { store with
      redoStack := store.redoStack ++ [current]
      undoStack := store.undoStack.dropLast }

/-- The text on top of the redo stack comes back; `none` if the stack is empty. -/
def doRedoChanges (current : Text) (store : EditorStore) : Option EditorStore := do
  let text ← store.redoStack.getLast?
  return restoreVersion diffLines text
    { store with
      undoStack := store.undoStack ++ [current]
      redoStack := store.redoStack.dropLast }

def resetResolveEditor (store : EditorStore) : EditorStore :=
  let reset : EditorStore :=
    { store with
      rtModified := store.original
      modified := store.original
      undoStack := []
      redoStack := []
      locationMapping := [] }
  let diffed : EditorStore :=
    if reset.saMerged.length > 0 then
      { reset with saPatches := reset.semanticPatches diffLines (-1) }
    else reset
  diffed.refreshRemainingConflictBlocks

/-- `patches.slice` makes a copy that nobody keeps, so that the patches stay. -/
def resetSAResolutions (store : EditorStore) : EditorStore :=
  { store with saNopatches := true, saResolutions := [], saMerged := [] }

def setSAResolutionNoPatches (nopatches : Bool) (store : EditorStore) : EditorStore :=
  { store with saNopatches := nopatches }

def setSAResolutions (resolutions : List (List Text)) (merged : List Text) (store : EditorStore) :
    EditorStore :=
  let given : EditorStore := { store with saResolutions := resolutions.map joinLines }
  if given.saNopatches then given
  else
    let merging : EditorStore := { given with saMerged := merged }
    let patches := merging.semanticPatches diffLines (-1)
    { merging with saPatches := patches, saConstPatches := patches }

def clearMLResolutions (store : EditorStore) : EditorStore :=
  { store with mlResolutions := [] }

def pushMLResolution (resolution : Text) (store : EditorStore) : EditorStore :=
  { store with mlResolutions := store.mlResolutions ++ [resolution] }

def setDLResolutions (isPending : Bool) (resolutions : List DLResolution) (store : EditorStore) :
    EditorStore :=
  { store with dlPending := isPending, dlResolutions := resolutions }

/-! ## Actions -/

/-- Whether the choice can be applied. Its block is looked for in the edited lines. -/
def testIsApplicable (payload : ApplyPayload) (store : EditorStore) : Bool × EditorStore :=
  if payload.type ≠ .patch then
    let blockInterval := store.originalFingerprints[payload.fingerIndex]?.bind
      (findSpecificFingerprint sha256 store.rtModified)
    match blockInterval with
    | none => (false, store)
    | some interval =>
        (true, { store with locationMapping := (payload.id, interval) :: store.locationMapping })
  else (true, store)

def canUndo (store : EditorStore) : Bool :=
  store.undoStack.length > 0

def canRedo (store : EditorStore) : Bool :=
  store.redoStack.length > 0

def undoChanges (store : EditorStore) : Option EditorStore :=
  if store.canUndo then store.doUndoChanges diffLines (joinLines store.rtModified) else some store

def redoChanges (store : EditorStore) : Option EditorStore :=
  if store.canRedo then store.doRedoChanges diffLines (joinLines store.rtModified) else some store

end Libraries

end EditorStore

/-! ## Runs -/

/-- What the page does with the store. -/
inductive EditorStep
  | initResolveEditorContent (conflict : Text)
  | refreshRemainingConflictBlocks
  | saveModifiedContent (newContent : Text) (line : Int)
  | testIsApplicable (payload : ApplyPayload)
  | applyResolution (payload : ApplyPayload)
  | undoChanges
  | redoChanges
  | resetResolveEditor
  | resetSAResolutions
  | setSAResolutionNoPatches (nopatches : Bool)
  | setSAResolutions (resolutions : List (List Text)) (merged : List Text)
  | clearMLResolutions
  | pushMLResolution (resolution : Text)
  | setDLResolutions (isPending : Bool) (resolutions : List DLResolution)
deriving DecidableEq, Repr

/-- The step opens a file. -/
def EditorStep.opens : EditorStep → Bool
  | .initResolveEditorContent _ => true
  | _ => false

/-- The store after a step; `none` if the step throws. -/
def editorMove (sha256 : Text → Text) (diffLines : Text → Text → List DiffChunk)
    (store : EditorStore) : EditorStep → Option EditorStore
  | .initResolveEditorContent conflict => some (store.initResolveEditorContent sha256 conflict)
  | .refreshRemainingConflictBlocks => some store.refreshRemainingConflictBlocks
  | .saveModifiedContent newContent line =>
      some (store.saveModifiedContent diffLines newContent line)
  | .testIsApplicable payload => some (store.testIsApplicable sha256 payload).2
  | .applyResolution payload => store.applyResolution diffLines payload
  | .undoChanges => store.undoChanges diffLines
  | .redoChanges => store.redoChanges diffLines
  | .resetResolveEditor => some (store.resetResolveEditor diffLines)
  | .resetSAResolutions => some store.resetSAResolutions
  | .setSAResolutionNoPatches nopatches => some (store.setSAResolutionNoPatches nopatches)
  | .setSAResolutions resolutions merged =>
      some (store.setSAResolutions diffLines resolutions merged)
  | .clearMLResolutions => some store.clearMLResolutions
  | .pushMLResolution resolution => some (store.pushMLResolution resolution)
  | .setDLResolutions isPending resolutions =>
      some (store.setDLResolutions isPending resolutions)

/-! ## What a step changes -/

namespace EditorStore

variable (sha256 : Text → Text) (diffLines : Text → Text → List DiffChunk)

/-- The patches of a store, or such as it makes of lines. -/
def PatchesFor (store : EditorStore) (patches : List EditorPatch) : Prop :=
  patches = store.saPatches ∨
    ∃ (startLine : Int) (other : EditorStore), patches = other.semanticPatches diffLines startLine

/-- Only the patches are made anew. -/
theorem rtDiff_eq (startLine : Int) (store : EditorStore) :
    ∃ patches, PatchesFor diffLines store patches ∧
      store.rtDiff diffLines startLine = { store with saPatches := patches } := by
  rw [rtDiff]
  split
  · exact ⟨_, .inr ⟨startLine, store, rfl⟩, rfl⟩
  · exact ⟨store.saPatches, .inl rfl, rfl⟩

/-- A new version saves the old one. -/
theorem newVersion_eq (lines : List Text) (store : EditorStore) :
    ∃ patches, PatchesFor diffLines store patches ∧ store.newVersion diffLines lines =
      { store with
        undoStack := store.undoStack ++ [joinLines store.rtModified]
        redoStack := []
        rtModified := lines
        modified := lines
        saPatches := patches } :=
  rtDiff_eq diffLines (-1)
    { store.saveVersion store.rtModified with rtModified := lines, modified := lines }

theorem testIsApplicable_eq (payload : ApplyPayload) (store : EditorStore) :
    ∃ locationMapping, (store.testIsApplicable sha256 payload).2 =
      { store with locationMapping } := by
  simp only [testIsApplicable]
  split
  · split
    · exact ⟨store.locationMapping, rfl⟩
    · exact ⟨_, rfl⟩
  · exact ⟨store.locationMapping, rfl⟩

/-- Without an earlier version there is nothing to undo. -/
theorem undoChanges_first {store : EditorStore} (first : store.undoStack = []) :
    store.undoChanges diffLines = some store := by
  simp [undoChanges, canUndo, first]

theorem undoChanges_concat {store : EditorStore} {earlier : List Text} {text : Text}
    (stack : store.undoStack = earlier ++ [text]) :
    store.undoChanges diffLines = some (restoreVersion diffLines text
      { store with
        redoStack := store.redoStack ++ [joinLines store.rtModified]
        undoStack := earlier }) := by
  simp [undoChanges, canUndo, doUndoChanges, stack]

/-- Without a version that was undone there is nothing to redo. -/
theorem redoChanges_last {store : EditorStore} (last : store.redoStack = []) :
    store.redoChanges diffLines = some store := by
  simp [redoChanges, canRedo, last]

theorem redoChanges_concat {store : EditorStore} {later : List Text} {text : Text}
    (stack : store.redoStack = later ++ [text]) :
    store.redoChanges diffLines = some (restoreVersion diffLines text
      { store with
        undoStack := store.undoStack ++ [joinLines store.rtModified]
        redoStack := later }) := by
  simp [redoChanges, canRedo, doRedoChanges, stack]

/-- Both stacks are lost when the file is read anew. -/
theorem resetResolveEditor_eq (store : EditorStore) :
    ∃ saPatches, PatchesFor diffLines store saPatches ∧ store.resetResolveEditor diffLines =
      { store with
        rtModified := store.original
        modified := store.original
        undoStack := []
        redoStack := []
        locationMapping := []
        saPatches
        remainingConflictBlocks := findConflictBlocks store.original } := by
  rw [resetResolveEditor]
  split
  · exact ⟨_, .inr ⟨-1, _, rfl⟩, rfl⟩
  · exact ⟨store.saPatches, .inl rfl, rfl⟩

theorem setSAResolutions_eq (resolutions : List (List Text)) (merged : List Text)
    (store : EditorStore) :
    ∃ saResolutions saMerged saPatches saConstPatches, PatchesFor diffLines store saPatches ∧
      store.setSAResolutions diffLines resolutions merged =
        { store with saResolutions, saMerged, saPatches, saConstPatches } := by
  rw [setSAResolutions]
  split
  · exact ⟨_, store.saMerged, store.saPatches, store.saConstPatches, .inl rfl, rfl⟩
  · exact ⟨_, _, _, _, .inr ⟨-1, _, rfl⟩, rfl⟩

variable {sha256 diffLines}

/-- The choice has no resolution yet, and applying it gives a warning only. -/
def Unavailable (payload : ApplyPayload) (store : EditorStore) : Prop :=
  payload.type = .dl ∧ (store.dlPending = true ∨
    ∃ res ∈ store.dlResolutions[payload.index]?, res.resolvable = false)

/-- A resolution or a patch that is applied makes a new version of the lines, unless there is
only a warning. -/
theorem applyResolution_cases {payload : ApplyPayload} {store next : EditorStore}
    (applied : store.applyResolution diffLines payload = some next) :
    store.Unavailable payload ∧ next = store ∨
      ¬ store.Unavailable payload ∧ ∃ dlResolutions lines,
        next = (({ store with dlResolutions } : EditorStore).newVersion diffLines
          lines).refreshRemainingConflictBlocks := by
  have applies (other : payload.type ≠ .dl) (lines : List Text) :
      ¬ store.Unavailable payload ∧ ∃ dlResolutions lines',
        (store.newVersion diffLines lines).refreshRemainingConflictBlocks =
          (({ store with dlResolutions } : EditorStore).newVersion diffLines
            lines').refreshRemainingConflictBlocks :=
    ⟨fun unavailable => other unavailable.1, store.dlResolutions, lines, rfl⟩
  rw [applyResolution] at applied
  split at applied <;> rename_i type
  case h_7 => exact absurd applied (by simp)
  all_goals simp only [Option.bind_eq_bind, Option.bind_eq_some_iff, Option.pure_def,
    Option.some.injEq] at applied
  case h_1 =>
    obtain ⟨patch, -, rfl⟩ := applied
    exact .inr (applies (by simp [type]) _)
  case h_2 | h_3 | h_5 | h_6 =>
    obtain ⟨interval, -, resolution, -, rfl⟩ := applied
    exact .inr (applies (by simp [type]) _)
  case h_4 =>
    obtain ⟨interval, -, block, -, applied⟩ := applied
    split at applied
    · exact absurd applied (by simp)
    · obtain rfl := Option.some.inj applied
      exact .inr (applies (by simp [type]) _)
  case h_8 =>
    obtain ⟨interval, -, applied⟩ := applied
    split at applied
    · rename_i pending
      exact .inl ⟨⟨type, .inl pending⟩, (Option.some.inj applied).symm⟩
    · rename_i ready
      obtain ⟨res, here, applied⟩ := Option.bind_eq_some_iff.mp applied
      split at applied
      · rename_i unresolvable
        exact .inl ⟨⟨type, .inr ⟨res, here, unresolvable⟩⟩, (Option.some.inj applied).symm⟩
      · rename_i resolvable
        refine .inr ⟨?_, _, _, (Option.some.inj applied).symm⟩
        rintro ⟨-, pending | ⟨other, found, unresolvable⟩⟩
        · exact ready pending
        · obtain rfl : res = other := Option.some.inj (here.symm.trans found)
          exact resolvable unresolvable

/-- What is known about the opened file is the same. -/
structure SameFile (first second : EditorStore) : Prop where
  original : first.original = second.original
  conflictBlocks : first.conflictBlocks = second.conflictBlocks
  originalFingerprints : first.originalFingerprints = second.originalFingerprints

theorem SameFile.refl (store : EditorStore) : SameFile store store :=
  ⟨rfl, rfl, rfl⟩

theorem SameFile.trans {first second third : EditorStore} (before : SameFile first second)
    (after : SameFile second third) : SameFile first third :=
  ⟨before.original.trans after.original, before.conflictBlocks.trans after.conflictBlocks,
    before.originalFingerprints.trans after.originalFingerprints⟩

/-- A step that does not open a file leaves the opened one as it is, and a step keeps the patches
or makes new ones of lines. -/
theorem editorMove_keeps {store next : EditorStore} {step : EditorStep}
    (moved : editorMove sha256 diffLines store step = some next) :
    (step.opens = false → SameFile store next) ∧ PatchesFor diffLines store next.saPatches := by
  cases step with
  | initResolveEditorContent conflict =>
      obtain rfl := Option.some.inj moved
      exact ⟨fun stays => absurd stays (by simp [EditorStep.opens]), .inl rfl⟩
  | saveModifiedContent newContent line =>
      obtain rfl := Option.some.inj moved
      obtain ⟨patches, madeFor, same⟩ := rtDiff_eq diffLines line
        { store with rtModified := splitText newContent }
      rw [saveModifiedContent, same]
      exact ⟨fun _ => ⟨rfl, rfl, rfl⟩, madeFor⟩
  | testIsApplicable payload =>
      obtain rfl := Option.some.inj moved
      obtain ⟨locationMapping, same⟩ := testIsApplicable_eq sha256 payload store
      rw [same]
      exact ⟨fun _ => ⟨rfl, rfl, rfl⟩, .inl rfl⟩
  | applyResolution payload =>
      rcases applyResolution_cases moved with ⟨-, rfl⟩ | ⟨-, dlResolutions, lines, rfl⟩
      · exact ⟨fun _ => .refl next, .inl rfl⟩
      · obtain ⟨patches, madeFor, same⟩ := newVersion_eq diffLines lines
          { store with dlResolutions }
        rw [same]
        exact ⟨fun _ => ⟨rfl, rfl, rfl⟩, madeFor⟩
  | undoChanges =>
      rcases List.eq_nil_or_concat' store.undoStack with first | ⟨earlier, text, stack⟩
      · obtain rfl := Option.some.inj ((undoChanges_first diffLines first).symm.trans moved)
        exact ⟨fun _ => .refl store, .inl rfl⟩
      · obtain rfl := Option.some.inj ((undoChanges_concat diffLines stack).symm.trans moved)
        exact ⟨fun _ => ⟨rfl, rfl, rfl⟩, .inr ⟨-1, _, rfl⟩⟩
  | redoChanges =>
      rcases List.eq_nil_or_concat' store.redoStack with last | ⟨later, text, stack⟩
      · obtain rfl := Option.some.inj ((redoChanges_last diffLines last).symm.trans moved)
        exact ⟨fun _ => .refl store, .inl rfl⟩
      · obtain rfl := Option.some.inj ((redoChanges_concat diffLines stack).symm.trans moved)
        exact ⟨fun _ => ⟨rfl, rfl, rfl⟩, .inr ⟨-1, _, rfl⟩⟩
  | resetResolveEditor =>
      obtain rfl := Option.some.inj moved
      obtain ⟨saPatches, madeFor, same⟩ := resetResolveEditor_eq diffLines store
      rw [same]
      exact ⟨fun _ => ⟨rfl, rfl, rfl⟩, madeFor⟩
  | setSAResolutions resolutions merged =>
      obtain rfl := Option.some.inj moved
      obtain ⟨saResolutions, saMerged, saPatches, saConstPatches, madeFor, same⟩ :=
        setSAResolutions_eq diffLines resolutions merged store
      rw [same]
      exact ⟨fun _ => ⟨rfl, rfl, rfl⟩, madeFor⟩
  | _ =>
      obtain rfl := Option.some.inj moved
      exact ⟨fun _ => ⟨rfl, rfl, rfl⟩, .inl rfl⟩

/-- In every run, patches begin in a line of the file, so that `applyPatch` never slices from the
end of the lines. -/
theorem saPatches_positive {steps : List EditorStep} {store : EditorStore}
    (run : Steps (editorMove sha256 diffLines) {} steps store) :
    ∀ patch ∈ store.saPatches, 1 ≤ patch.start := by
  induction run with
  | refl => exact fun patch member => absurd member List.not_mem_nil
  | step _ moved positive =>
      rcases (editorMove_keeps moved).2 with same | ⟨startLine, other, made⟩
      · rwa [same]
      · rw [made, semanticPatches]
        exact constructSemanticPatch_positive (customGitDiff2_positive _ startLine)

end EditorStore

end MergeBot
