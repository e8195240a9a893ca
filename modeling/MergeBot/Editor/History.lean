import MergeBot.Foundation.Timeline
import MergeBot.Editor.Store

/-!
# Undo and redo

The stacks of the editor and the text between them are a timeline, and undoing and redoing turn
back and forth on it. `undo_redo_conserved` says that no version is lost in this way.
-/

namespace MergeBot

open Foundation

namespace EditorStore

/-- The texts of the editor, with the current one between the stacks. -/
def timeline (store : EditorStore) : Timeline Text where
  past := store.undoStack
  present := joinLines store.rtModified
  future := store.redoStack

/-- All texts, from the first one to the last one that was undone. -/
def versions (store : EditorStore) : List Text :=
  store.undoStack ++ [joinLines store.rtModified] ++ store.redoStack.reverse

end EditorStore

/-- The action for a turn. -/
def turnStep : Turn → EditorStep
  | .back => .undoChanges
  | .forth => .redoChanges

section Libraries

variable (sha256 : Text → Text) (diffLines : Text → Text → List DiffChunk)

/-- A text that comes back is the present of the timeline. -/
theorem timeline_restoreVersion (text : Text) (store : EditorStore) :
    (store.restoreVersion diffLines text).timeline =
      ⟨store.undoStack, text, store.redoStack⟩ := by
  rw [EditorStore.timeline, EditorStore.restoreVersion, joinLines_splitText]

/-- An action turns the timeline, and does not throw. -/
theorem editorMove_turn (store : EditorStore) (direction : Turn) :
    ∃ next, editorMove sha256 diffLines store (turnStep direction) = some next ∧
      next.timeline = store.timeline.turn direction ∧
      (EditorLines store.rtModified → EditorLines next.rtModified) := by
  cases direction with
  | back =>
      rcases List.eq_nil_or_concat' store.undoStack with first | ⟨earlier, text, stack⟩
      · have moved := EditorStore.undoChanges_first diffLines first
        refine ⟨store, moved, ?_, fun valid => valid⟩
        simp [EditorStore.timeline, Timeline.turn, first]
      · have moved := EditorStore.undoChanges_concat diffLines stack
        refine ⟨_, moved, ?_, fun _ => editorLines_splitText text⟩
        rw [timeline_restoreVersion]
        simp [EditorStore.timeline, Timeline.turn, stack]
  | forth =>
      rcases List.eq_nil_or_concat' store.redoStack with last | ⟨later, text, stack⟩
      · have moved := EditorStore.redoChanges_last diffLines last
        refine ⟨store, moved, ?_, fun valid => valid⟩
        simp [EditorStore.timeline, Timeline.turn, last]
      · have moved := EditorStore.redoChanges_concat diffLines stack
        refine ⟨_, moved, ?_, fun _ => editorLines_splitText text⟩
        rw [timeline_restoreVersion]
        simp [EditorStore.timeline, Timeline.turn, stack]

/-- Any actions turn the timeline, one after the other. -/
theorem replay_turns (store : EditorStore) (directions : List Turn) :
    ∃ final, replay (editorMove sha256 diffLines) store (directions.map turnStep) = some final ∧
      final.timeline = directions.foldl Timeline.turn store.timeline ∧
      (EditorLines store.rtModified → EditorLines final.rtModified) := by
  induction directions generalizing store with
  | nil => exact ⟨store, rfl, rfl, fun valid => valid⟩
  | cons direction directions inductionHypothesis =>
      obtain ⟨next, moved, turned, valid⟩ := editorMove_turn sha256 diffLines store direction
      obtain ⟨final, replayed, turns, finalValid⟩ := inductionHypothesis next
      refine ⟨final, ?_, ?_, fun lines => finalValid (valid lines)⟩
      · rw [List.map_cons, replay, moved, Option.bind_some, replayed]
      · rw [turns, turned, List.foldl_cons]

/-- Two turns that cancel out on the timeline bring back the lines. -/
theorem replay_cancel {store : EditorStore} (valid : EditorLines store.rtModified)
    {first second : Turn}
    (cancel : (store.timeline.turn first).turn second = store.timeline) :
    ∃ final, replay (editorMove sha256 diffLines) store [turnStep first, turnStep second] =
      some final ∧ final.rtModified = store.rtModified := by
  obtain ⟨final, replayed, turns, finalValid⟩ :=
    replay_turns sha256 diffLines store [first, second]
  refine ⟨final, replayed, ?_⟩
  have present : joinLines final.rtModified = joinLines store.rtModified :=
    congrArg Timeline.present (turns.trans cancel)
  rw [← splitText_joinLines (finalValid valid), present, splitText_joinLines valid]

/-- Undoing and redoing, in any order, never takes a text from an empty stack and loses no
version. If there is something to undo, redoing brings it back, and the other way round. -/
theorem undo_redo_conserved {store : EditorStore} (valid : EditorLines store.rtModified) :
    (∀ directions : List Turn, ∃ final,
        replay (editorMove sha256 diffLines) store (directions.map turnStep) = some final ∧
          final.versions = store.versions) ∧
      (store.canUndo → ∃ final,
        replay (editorMove sha256 diffLines) store [.undoChanges, .redoChanges] = some final ∧
          final.rtModified = store.rtModified) ∧
      (store.canRedo → ∃ final,
        replay (editorMove sha256 diffLines) store [.redoChanges, .undoChanges] = some final ∧
          final.rtModified = store.rtModified) := by
  refine ⟨fun directions => ?_, fun canUndo => ?_, fun canRedo => ?_⟩
  · obtain ⟨final, replayed, turns, -⟩ := replay_turns sha256 diffLines store directions
    refine ⟨final, replayed, ?_⟩
    have versions := Timeline.versions_turns store.timeline directions
    rwa [← turns] at versions
  · have hasPast : store.undoStack ≠ [] := by
      simpa [EditorStore.canUndo, List.length_pos_iff] using canUndo
    have cancel : (store.timeline.turn .back).turn .forth = store.timeline :=
      Timeline.forth_back hasPast
    exact replay_cancel sha256 diffLines valid cancel
  · have hasFuture : store.redoStack ≠ [] := by
      simpa [EditorStore.canRedo, List.length_pos_iff] using canRedo
    have cancel : (store.timeline.turn .forth).turn .back = store.timeline :=
      Timeline.back_forth hasFuture
    exact replay_cancel sha256 diffLines valid cancel

end Libraries

/-- A conflict with one line on each side. -/
def smallConflict : Text :=
  "<<<<<<<\na\n=======\nb\n>>>>>>>".toList

/-- The steps that accept our side of its block. -/
def acceptOurs : List EditorStep :=
  [.initResolveEditorContent smallConflict, .testIsApplicable ⟨0, 0, .ours, 0⟩,
    .applyResolution ⟨0, 0, .ours, 0⟩]

/-- Undo and redo after our side has been accepted. -/
theorem acceptOurs_conserved :
    ∃ store, replay (editorMove id fun _ _ => []) {} acceptOurs = some store ∧
      EditorLines store.rtModified ∧ store.canUndo ∧
      ((∀ directions : List Turn, ∃ final,
          replay (editorMove id fun _ _ => []) store (directions.map turnStep) = some final ∧
            final.versions = store.versions) ∧
        (store.canUndo → ∃ final,
          replay (editorMove id fun _ _ => []) store [.undoChanges, .redoChanges] = some final ∧
            final.rtModified = store.rtModified) ∧
        (store.canRedo → ∃ final,
          replay (editorMove id fun _ _ => []) store [.redoChanges, .undoChanges] = some final ∧
            final.rtModified = store.rtModified)) := by
  have accepted : (replay (editorMove id fun _ _ => []) {} acceptOurs).map
      (fun store => (store.rtModified, store.canUndo)) = some (["a".toList], true) := by decide
  obtain ⟨store, replayed, same⟩ := Option.map_eq_some_iff.mp accepted
  obtain ⟨lines, undo⟩ := Prod.mk.inj same
  have valid : EditorLines store.rtModified := by
    rw [lines]
    exact ⟨by simp, by decide⟩
  exact ⟨store, replayed, valid, undo, undo_redo_conserved id (fun _ _ => []) valid⟩

/-- Without anything to undo, only the redo has an effect, and the lines are others. -/
theorem undo_nothing_redo :
    ∃ store, replay (editorMove id fun _ _ => []) {} (acceptOurs ++ [.undoChanges]) = some store ∧
      EditorLines store.rtModified ∧
      ∃ final, replay (editorMove id fun _ _ => []) store [.undoChanges, .redoChanges] =
          some final ∧
        final.rtModified ≠ store.rtModified := by
  have undone : ((replay (editorMove id fun _ _ => []) {} (acceptOurs ++ [.undoChanges])).bind
      fun store => (replay (editorMove id fun _ _ => []) store [.undoChanges, .redoChanges]).map
        fun final => (store.rtModified, final.rtModified)) =
      some (splitText smallConflict, ["a".toList]) := by decide
  obtain ⟨store, replayed, later⟩ := Option.bind_eq_some_iff.mp undone
  obtain ⟨final, redone, same⟩ := Option.map_eq_some_iff.mp later
  obtain ⟨before, after⟩ := Prod.mk.inj same
  refine ⟨store, replayed, ?_, final, redone, ?_⟩
  · rw [before]
    exact editorLines_splitText smallConflict
  · rw [before, after]
    decide

end MergeBot
