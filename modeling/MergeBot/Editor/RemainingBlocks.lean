import MergeBot.Editor.History

/-!
# The blocks that remain

`remainingConflictBlocks` is made anew by some of the operations that change the lines, but not by
undoing and redoing. `remainingBlocks_current_iff` says in which runs it is current after each
operation that should keep it so.
-/

namespace MergeBot

open Foundation

namespace EditorStore

/-- The list is that of the edited lines. -/
def Current (store : EditorStore) : Prop :=
  store.remainingConflictBlocks = findConflictBlocks store.rtModified

instance (store : EditorStore) : Decidable store.Current :=
  inferInstanceAs (Decidable (_ = _))

end EditorStore

/-- The steps after which the list should be current. An action with nothing to undo or redo does
not commit anything. -/
def ShouldRefresh (store : EditorStore) : EditorStep → Prop
  | .applyResolution _ | .resetResolveEditor | .initResolveEditorContent _ => True
  | .undoChanges => store.canUndo
  | .redoChanges => store.canRedo
  | _ => False

/-- A text that comes back has the blocks of the list, and the list is current before a choice
without a resolution is made. -/
def KeepsCurrent (store : EditorStore) : EditorStep → Prop
  | .undoChanges => ∀ text ∈ store.undoStack.getLast?,
      findConflictBlocks (splitText text) = store.remainingConflictBlocks
  | .redoChanges => ∀ text ∈ store.redoStack.getLast?,
      findConflictBlocks (splitText text) = store.remainingConflictBlocks
  | .applyResolution payload => store.Unavailable payload → store.Current
  | _ => True

section Libraries

variable (sha256 : Text → Text) (diffLines : Text → Text → List DiffChunk)

/-- What holds of every such step of a run from the initial store, with the stores before and
after it. -/
def AtRefreshes (steps : List EditorStep) (holds : EditorStore → EditorStep → EditorStore → Prop) :
    Prop :=
  ∀ front step rest store next, steps = front ++ step :: rest →
    replay (editorMove sha256 diffLines) {} front = some store → ShouldRefresh store step →
      editorMove sha256 diffLines store step = some next → holds store step next

variable {sha256 diffLines}

/-- After an undo or redo the list is the one of before. -/
theorem current_restoreVersion_iff (text : Text) (store : EditorStore) :
    (store.restoreVersion diffLines text).Current ↔
      findConflictBlocks (splitText text) = store.remainingConflictBlocks :=
  eq_comm

/-- One step makes the list current if and only if it meets the condition. -/
theorem current_iff {store next : EditorStore} {step : EditorStep}
    (refreshes : ShouldRefresh store step)
    (moved : editorMove sha256 diffLines store step = some next) :
    next.Current ↔ KeepsCurrent store step := by
  cases step with
  | undoChanges =>
      rcases List.eq_nil_or_concat' store.undoStack with first | ⟨earlier, text, stack⟩
      · simp [ShouldRefresh, EditorStore.canUndo, first] at refreshes
      · obtain rfl := Option.some.inj ((EditorStore.undoChanges_concat diffLines stack).symm.trans
          moved)
        rw [current_restoreVersion_iff]
        simp [KeepsCurrent, stack]
  | redoChanges =>
      rcases List.eq_nil_or_concat' store.redoStack with last | ⟨later, text, stack⟩
      · simp [ShouldRefresh, EditorStore.canRedo, last] at refreshes
      · obtain rfl := Option.some.inj ((EditorStore.redoChanges_concat diffLines stack).symm.trans
          moved)
        rw [current_restoreVersion_iff]
        simp [KeepsCurrent, stack]
  | applyResolution payload =>
      rcases EditorStore.applyResolution_cases moved with
        ⟨unavailable, rfl⟩ | ⟨available, dlResolutions, lines, rfl⟩
      · exact ⟨fun current _ => current, fun keeps => keeps unavailable⟩
      · exact iff_of_true rfl fun unavailable => absurd unavailable available
  | resetResolveEditor =>
      obtain rfl := Option.some.inj moved
      obtain ⟨saPatches, -, same⟩ := EditorStore.resetResolveEditor_eq diffLines store
      rw [same]
      exact iff_of_true rfl trivial
  | initResolveEditorContent conflict =>
      obtain rfl := Option.some.inj moved
      exact iff_of_true rfl trivial
  | _ => exact absurd refreshes id

/-- In every run, the list is current after each of these steps if and only if each of them meets
the condition. -/
theorem remainingBlocks_current_iff (steps : List EditorStep) :
    AtRefreshes sha256 diffLines steps (fun _ _ next => next.Current) ↔
      AtRefreshes sha256 diffLines steps (fun store step _ => KeepsCurrent store step) := by
  constructor
  · intro current front step rest store next split replayed refreshes moved
    exact (current_iff refreshes moved).mp
      (current front step rest store next split replayed refreshes moved)
  · intro keeps front step rest store next split replayed refreshes moved
    exact (current_iff refreshes moved).mpr
      (keeps front step rest store next split replayed refreshes moved)

end Libraries

/-- After the undo the block is there again, and the list is still empty. -/
theorem undo_notCurrent :
    ¬ AtRefreshes id (fun _ _ => []) (acceptOurs ++ [.undoChanges])
      (fun _ _ next => next.Current) := by
  intro current
  have undone : ((replay (editorMove id fun _ _ => []) {} acceptOurs).bind fun store =>
      (editorMove id (fun _ _ => []) store .undoChanges).map fun next =>
        (store.canUndo, decide next.Current)) = some (true, false) := by decide
  obtain ⟨store, replayed, later⟩ := Option.bind_eq_some_iff.mp undone
  obtain ⟨next, moved, same⟩ := Option.map_eq_some_iff.mp later
  obtain ⟨undo, notCurrent⟩ := Prod.mk.inj same
  exact of_decide_eq_false notCurrent
    (current acceptOurs .undoChanges [] store next rfl replayed undo moved)

end MergeBot
