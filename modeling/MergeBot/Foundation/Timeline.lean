import Mathlib.Data.List.Basic

/-!
# Versions with undo and redo

A timeline has the current version, the ones before it and the ones that were taken back, with
the last one taken back on top. Turning back and forth moves along the timeline and leaves its
versions as they are (`versions_turns`); one turn undoes the other (`forth_back`, `back_forth`).
-/

namespace MergeBot.Foundation

/-- A version between two stacks, whose tops are their last entries. -/
@[ext]
structure Timeline (α : Type*) where
  past : List α
  present : α
  future : List α

/-- A direction on the timeline. -/
inductive Turn
  | back
  | forth
deriving DecidableEq, Repr

namespace Timeline

variable {α : Type*}

/-- All versions, from the first one to the last one. -/
def versions (timeline : Timeline α) : List α :=
  timeline.past ++ [timeline.present] ++ timeline.future.reverse

/-- The version before the current one. -/
def back (timeline : Timeline α) : Timeline α :=
  match timeline.past.getLast? with
  | none => timeline
  | some version =>
      { past := timeline.past.dropLast
        present := version
        future := timeline.future ++ [timeline.present] }

/-- The version behind the current one. -/
def forth (timeline : Timeline α) : Timeline α :=
  match timeline.future.getLast? with
  | none => timeline
  | some version =>
      { past := timeline.past ++ [timeline.present]
        present := version
        future := timeline.future.dropLast }

def turn (timeline : Timeline α) : Turn → Timeline α
  | .back => timeline.back
  | .forth => timeline.forth

@[simp]
theorem back_concat (past future : List α) (version present : α) :
    back ⟨past ++ [version], present, future⟩ = ⟨past, version, future ++ [present]⟩ := by
  simp [back]

@[simp]
theorem forth_concat (past future : List α) (version present : α) :
    forth ⟨past, present, future ++ [version]⟩ = ⟨past ++ [present], version, future⟩ := by
  simp [forth]

@[simp]
theorem back_first (present : α) (future : List α) :
    back ⟨[], present, future⟩ = ⟨[], present, future⟩ :=
  rfl

@[simp]
theorem forth_last (past : List α) (present : α) :
    forth ⟨past, present, []⟩ = ⟨past, present, []⟩ :=
  rfl

theorem versions_back (timeline : Timeline α) : timeline.back.versions = timeline.versions := by
  obtain ⟨past, present, future⟩ := timeline
  rcases List.eq_nil_or_concat' past with rfl | ⟨earlier, version, rfl⟩
  · rw [back_first]
  · simp [versions]

theorem versions_forth (timeline : Timeline α) : timeline.forth.versions = timeline.versions := by
  obtain ⟨past, present, future⟩ := timeline
  rcases List.eq_nil_or_concat' future with rfl | ⟨later, version, rfl⟩
  · rw [forth_last]
  · simp [versions]

/-- A turn leaves the versions as they are. -/
theorem versions_turn (timeline : Timeline α) (direction : Turn) :
    (timeline.turn direction).versions = timeline.versions := by
  cases direction with
  | back => exact versions_back timeline
  | forth => exact versions_forth timeline

/-- Any turns leave the versions as they are. -/
theorem versions_turns (timeline : Timeline α) (directions : List Turn) :
    (directions.foldl turn timeline).versions = timeline.versions := by
  induction directions generalizing timeline with
  | nil => rfl
  | cons direction directions inductionHypothesis =>
      rw [List.foldl_cons, inductionHypothesis, versions_turn]

/-- What was taken back comes again. -/
theorem forth_back {timeline : Timeline α} (hasPast : timeline.past ≠ []) :
    timeline.back.forth = timeline := by
  obtain ⟨past, present, future⟩ := timeline
  obtain ⟨earlier, version, rfl⟩ := (List.eq_nil_or_concat' past).resolve_left hasPast
  simp

/-- What came again is taken back. -/
theorem back_forth {timeline : Timeline α} (hasFuture : timeline.future ≠ []) :
    timeline.forth.back = timeline := by
  obtain ⟨past, present, future⟩ := timeline
  obtain ⟨later, version, rfl⟩ := (List.eq_nil_or_concat' future).resolve_left hasFuture
  simp

end Timeline

end MergeBot.Foundation
