import MergeBot.Editor.History

/-!
# Opening another file

When a file is opened, the page reads its content into the store and resets the resolutions of
the static analysis. The stacks and the patches are left as they were.
`opened_clean_iff` says in which runs every file is opened in a clean editor; in a clean editor
nothing but a resolution of a prediction service depends on what was open before.
-/

namespace MergeBot

open Foundation

/-! ## What editing depends on -/

namespace EditorStore

/-- The store without the resolutions of the prediction services and without the fields that are
written only. -/
def editing (store : EditorStore) : EditorStore :=
  { store with
    modified := []
    mlResolutions := []
    dlPending := true
    dlResolutions := []
    saConstPatches := [] }

end EditorStore

/-- The step applies a resolution of a prediction service. -/
def EditorStep.predicted : EditorStep → Bool
  | .applyResolution payload => payload.type = .ml ∨ payload.type = .dl
  | _ => false

section Libraries

variable (sha256 : Text → Text) (diffLines : Text → Text → List DiffChunk)

/-- New patches in two stores. -/
theorem editing_rtDiff (line : Int) {first second : EditorStore}
    (same : first.editing = second.editing) :
    (first.rtDiff diffLines line).editing = (second.rtDiff diffLines line).editing := by
  have kept (store : EditorStore) :
      (store.rtDiff diffLines line).editing = store.editing.rtDiff diffLines line := by
    have patches : store.editing.saPatches = store.saPatches := rfl
    rw [EditorStore.rtDiff, EditorStore.rtDiff, patches]
    split <;> rfl
  rw [kept, kept, same]

/-- New lines in two stores. -/
theorem editing_newVersion (lines : List Text) {first second : EditorStore}
    (same : first.editing = second.editing) :
    ((first.newVersion diffLines lines).refreshRemainingConflictBlocks).editing =
      ((second.newVersion diffLines lines).refreshRemainingConflictBlocks).editing := by
  have saved := congrArg (fun store : EditorStore =>
    ({ store.saveVersion store.rtModified with rtModified := lines } : EditorStore)) same
  have version : (first.newVersion diffLines lines).editing =
      (second.newVersion diffLines lines).editing := editing_rtDiff diffLines (-1) saved
  exact congrArg EditorStore.refreshRemainingConflictBlocks version

/-- A resolution that does not come from a prediction service. -/
theorem editing_applyResolution (store : EditorStore) {payload : ApplyPayload}
    (notML : payload.type ≠ .ml) (notDL : payload.type ≠ .dl) :
    (store.applyResolution diffLines payload).map EditorStore.editing =
      (store.editing.applyResolution diffLines payload).map EditorStore.editing := by
  have patches : store.editing.saPatches = store.saPatches := rfl
  have mapping : store.editing.locationMapping = store.locationMapping := rfl
  have blocks : store.editing.conflictBlocks = store.conflictBlocks := rfl
  have resolutions : store.editing.saResolutions = store.saResolutions := rfl
  have version (lines : List Text) :
      some ((store.newVersion diffLines lines).refreshRemainingConflictBlocks).editing =
        some ((store.editing.newVersion diffLines lines).refreshRemainingConflictBlocks).editing :=
    congrArg some (editing_newVersion diffLines lines rfl)
  cases type : payload.type with
  | ml => exact absurd type notML
  | dl => exact absurd type notDL
  | git => simp only [EditorStore.applyResolution, type]
  | patch =>
      simp only [EditorStore.applyResolution, type, patches]
      cases store.saPatches[payload.index]? with
      | none => rfl
      | some patch => exact version _
  | sa =>
      simp only [EditorStore.applyResolution, type, mapping, resolutions]
      cases store.locationMapping.lookup payload.id with
      | none => rfl
      | some interval =>
          cases store.saResolutions[payload.index]? with
          | none => rfl
          | some resolution => exact version _
  | ours | theirs =>
      simp only [EditorStore.applyResolution, type, mapping, blocks]
      cases store.locationMapping.lookup payload.id with
      | none => rfl
      | some interval =>
          cases store.conflictBlocks[payload.index]? with
          | none => rfl
          | some block => exact version _
  | base =>
      simp only [EditorStore.applyResolution, type, mapping, blocks]
      cases store.locationMapping.lookup payload.id with
      | none => rfl
      | some interval =>
          cases store.conflictBlocks[payload.index]? with
          | none => rfl
          | some block =>
              simp only [Option.bind_eq_bind, Option.bind_some]
              split
              · rfl
              · exact version _

/-- What a step makes of the rest of the store depends on the rest of the store. -/
theorem editing_editorMove (store : EditorStore) {step : EditorStep}
    (unpredicted : step.predicted = false) :
    (editorMove sha256 diffLines store step).map EditorStore.editing =
      (editorMove sha256 diffLines store.editing step).map EditorStore.editing := by
  cases step with
  | saveModifiedContent newContent line =>
      have edited : ({ store with rtModified := splitText newContent } : EditorStore).editing =
          ({ store.editing with rtModified := splitText newContent } : EditorStore).editing := rfl
      exact congrArg some (editing_rtDiff diffLines line edited)
  | testIsApplicable payload =>
      have search : store.editing.originalFingerprints[payload.fingerIndex]?.bind
          (findSpecificFingerprint sha256 store.editing.rtModified) =
        store.originalFingerprints[payload.fingerIndex]?.bind
          (findSpecificFingerprint sha256 store.rtModified) := rfl
      simp only [editorMove, EditorStore.testIsApplicable, search]
      split
      · split <;> rfl
      · rfl
  | applyResolution payload =>
      have other : payload.type ≠ .ml ∧ payload.type ≠ .dl := by
        simpa [EditorStep.predicted] using unpredicted
      exact editing_applyResolution diffLines store other.1 other.2
  | undoChanges =>
      rcases List.eq_nil_or_concat' store.undoStack with first | ⟨earlier, text, stack⟩
      · have here := EditorStore.undoChanges_first diffLines first
        have there : store.editing.undoChanges diffLines = _ :=
          EditorStore.undoChanges_first diffLines first
        rw [editorMove, editorMove, here, there]
        rfl
      · have here := EditorStore.undoChanges_concat diffLines stack
        have there : store.editing.undoChanges diffLines = _ :=
          EditorStore.undoChanges_concat diffLines stack
        rw [editorMove, editorMove, here, there]
        rfl
  | redoChanges =>
      rcases List.eq_nil_or_concat' store.redoStack with last | ⟨later, text, stack⟩
      · have here := EditorStore.redoChanges_last diffLines last
        have there : store.editing.redoChanges diffLines = _ :=
          EditorStore.redoChanges_last diffLines last
        rw [editorMove, editorMove, here, there]
        rfl
      · have here := EditorStore.redoChanges_concat diffLines stack
        have there : store.editing.redoChanges diffLines = _ :=
          EditorStore.redoChanges_concat diffLines stack
        rw [editorMove, editorMove, here, there]
        rfl
  | resetResolveEditor =>
      have merged : store.editing.saMerged = store.saMerged := rfl
      simp only [editorMove, EditorStore.resetResolveEditor, merged]
      split <;> rfl
  | setSAResolutions resolutions merged =>
      have nopatches : store.editing.saNopatches = store.saNopatches := rfl
      simp only [editorMove, EditorStore.setSAResolutions, nopatches]
      split <;> rfl
  | _ => rfl

/-- Any steps but those of the prediction services make the same of the rest of two stores. -/
theorem editing_replay {first second : EditorStore} (same : first.editing = second.editing)
    {steps : List EditorStep} (unpredicted : ∀ step ∈ steps, step.predicted = false) :
    (replay (editorMove sha256 diffLines) first steps).map EditorStore.editing =
      (replay (editorMove sha256 diffLines) second steps).map EditorStore.editing := by
  induction steps generalizing first second with
  | nil => exact congrArg some same
  | cons step steps inductionHypothesis =>
      obtain ⟨here, later⟩ := List.forall_mem_cons.mp unpredicted
      have moved : (editorMove sha256 diffLines first step).map EditorStore.editing =
          (editorMove sha256 diffLines second step).map EditorStore.editing := by
        rw [editing_editorMove sha256 diffLines first here, same,
          ← editing_editorMove sha256 diffLines second here]
      rw [replay, replay]
      cases firstNext : editorMove sha256 diffLines first step with
      | none =>
          rw [firstNext] at moved
          rw [Option.map_eq_none_iff.mp moved.symm]
      | some next =>
          rw [firstNext] at moved
          obtain ⟨other, secondNext, nextSame⟩ := Option.map_eq_some_iff.mp moved.symm
          rw [secondNext]
          exact inductionHypothesis nextSame.symm later

/-! ## A clean editor -/

/-- The steps that open a file. -/
def openingSteps (content : Text) : List EditorStep :=
  [.initResolveEditorContent content, .resetSAResolutions]

/-- No text can come back from a stack, and no patch is offered. -/
structure NothingLeft (store : EditorStore) : Prop where
  undoStack : store.undoStack = []
  redoStack : store.redoStack = []
  saPatches : store.saPatches = []

/-- Nothing is left of other files: whatever follows, apart from a resolution of a prediction
service, it makes the same lines as in a store in which no other file has been opened. -/
structure OpenedClean (content : Text) (store : EditorStore) : Prop extends NothingLeft store where
  fresh : ∀ steps : List EditorStep, (∀ step ∈ steps, step.predicted = false) →
    (replay (editorMove sha256 diffLines) store steps).map EditorStore.rtModified =
      (replay (editorMove sha256 diffLines) {} (openingSteps content ++ steps)).map
        EditorStore.rtModified

variable {sha256 diffLines}

/-- Opening a file keeps the stacks and the patches. -/
theorem clean_of_opening_iff (content : Text) (store : EditorStore) :
    OpenedClean sha256 diffLines content
        (store.initResolveEditorContent sha256 content).resetSAResolutions ↔
      NothingLeft store := by
  constructor
  · intro clean
    exact ⟨clean.undoStack, clean.redoStack, clean.saPatches⟩
  · rintro ⟨undoStack, redoStack, saPatches⟩
    refine ⟨⟨undoStack, redoStack, saPatches⟩, fun steps unpredicted => ?_⟩
    let fresh := (EditorStore.initResolveEditorContent sha256 content {}).resetSAResolutions
    have same : (store.initResolveEditorContent sha256 content).resetSAResolutions.editing =
        fresh.editing := by
      simp [EditorStore.editing, EditorStore.initResolveEditorContent,
        EditorStore.resetSAResolutions, undoStack, redoStack, saPatches, fresh]
    have later := congrArg (Option.map EditorStore.rtModified)
      (editing_replay sha256 diffLines same unpredicted)
    rw [Option.map_map, Option.map_map] at later
    rw [replay_append]
    exact later

/-- In every run, each file is opened in a clean editor if and only if at each opening nothing is
left on the stacks and among the patches. -/
theorem opened_clean_iff (steps : List EditorStep) :
    (∀ front content rest opened, steps = front ++ (openingSteps content ++ rest) →
        replay (editorMove sha256 diffLines) {} (front ++ openingSteps content) = some opened →
          OpenedClean sha256 diffLines content opened) ↔
      ∀ front content rest store, steps = front ++ (openingSteps content ++ rest) →
        replay (editorMove sha256 diffLines) {} front = some store → NothingLeft store := by
  have opens {front : List EditorStep} {store : EditorStore} (content : Text)
      (replayed : replay (editorMove sha256 diffLines) {} front = some store) :
      replay (editorMove sha256 diffLines) {} (front ++ openingSteps content) =
        some (store.initResolveEditorContent sha256 content).resetSAResolutions := by
    rw [replay_append, replayed]
    rfl
  constructor
  · intro clean front content rest store split replayed
    exact (clean_of_opening_iff content store).mp
      (clean front content rest _ split (opens content replayed))
  · intro left front content rest opened split replayed
    have whole := replayed
    rw [replay_append] at whole
    obtain ⟨store, before, -⟩ := Option.bind_eq_some_iff.mp whole
    obtain rfl := Option.some.inj ((opens content before).symm.trans replayed)
    exact (clean_of_opening_iff content store).mpr (left front content rest store split before)

end Libraries

/-- A resolution in one file can be undone in the next one. -/
theorem undoStack_left :
    ¬ ∀ front content rest opened,
      acceptOurs ++ openingSteps "x".toList = front ++ (openingSteps content ++ rest) →
        replay (editorMove id fun _ _ => []) {} (front ++ openingSteps content) = some opened →
          OpenedClean id (fun _ _ => []) content opened := by
  intro clean
  have opened : (replay (editorMove id fun _ _ => []) {}
      (acceptOurs ++ openingSteps "x".toList)).map EditorStore.undoStack =
        some [smallConflict] := by decide
  obtain ⟨store, replayed, stack⟩ := Option.map_eq_some_iff.mp opened
  have empty := (clean acceptOurs "x".toList [] store rfl replayed).undoStack
  rw [empty] at stack
  exact absurd stack (by decide)

end MergeBot
