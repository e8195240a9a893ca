import Mathlib.Data.List.Basic
import Mathlib.Order.Bounds.Basic
import Mathlib.Order.MinMax

/-!
# Edit distance

`EditedIn n s t`: `n` insertions, deletions and substitutions of single elements, at any places
and in any order, turn `s` into `t`. `leastEdits_editDistance`: the distance that is computed along
both lists is the least such `n`. What holds of least numbers of edits, as symmetry and the
triangle inequality, follows from what can be done with edits.
-/

namespace MergeBot.Foundation

universe u

variable {α : Type u}

/-! ## Edits -/

/-- One insertion, deletion or substitution. -/
inductive OneEdit : List α → List α → Prop
  | insertion (front : List α) (c : α) (back : List α) :
      OneEdit (front ++ back) (front ++ c :: back)
  | deletion (front : List α) (c : α) (back : List α) :
      OneEdit (front ++ c :: back) (front ++ back)
  | substitution (front : List α) (c d : α) (back : List α) :
      OneEdit (front ++ c :: back) (front ++ d :: back)

/-- A number of edits turns one list into the other. -/
inductive EditedIn : Nat → List α → List α → Prop
  | refl (s : List α) : EditedIn 0 s s
  | step {n : Nat} {s middle t : List α} :
      OneEdit s middle → EditedIn n middle t → EditedIn (n + 1) s t

variable {s t : List α} {n : Nat}

/-- Edits can be undone. -/
theorem OneEdit.symm (edit : OneEdit s t) : OneEdit t s := by
  cases edit with
  | insertion front c back => exact .deletion front c back
  | deletion front c back => exact .insertion front c back
  | substitution front c d back => exact .substitution front d c back

/-- Edits can be made behind an element. -/
theorem OneEdit.cons (edit : OneEdit s t) (c : α) : OneEdit (c :: s) (c :: t) := by
  cases edit with
  | insertion front d back => exact .insertion (c :: front) d back
  | deletion front d back => exact .deletion (c :: front) d back
  | substitution front d e back => exact .substitution (c :: front) d e back

/-- Edits can be made in the mirrored list. -/
theorem OneEdit.reverse (edit : OneEdit s t) : OneEdit s.reverse t.reverse := by
  cases edit with
  | insertion front c back => simpa using OneEdit.insertion back.reverse c front.reverse
  | deletion front c back => simpa using OneEdit.deletion back.reverse c front.reverse
  | substitution front c d back => simpa using OneEdit.substitution back.reverse c d front.reverse

namespace EditedIn

/-- One edit. -/
theorem one (edit : OneEdit s t) : EditedIn 1 s t := .step edit (.refl t)

/-- Edits after others. -/
theorem trans {m : Nat} {r : List α} (first : EditedIn n s t) (second : EditedIn m t r) :
    EditedIn (n + m) s r := by
  induction first with
  | refl s => simpa using second
  | step edit _ inductionHypothesis =>
      rw [Nat.add_right_comm]
      exact .step edit (inductionHypothesis second)

/-- Edits can be undone. -/
theorem symm (edits : EditedIn n s t) : EditedIn n t s := by
  induction edits with
  | refl s => exact .refl s
  | step edit _ inductionHypothesis => exact inductionHypothesis.trans (.one edit.symm)

/-- Edits can be made behind an element. -/
theorem cons (edits : EditedIn n s t) (c : α) : EditedIn n (c :: s) (c :: t) := by
  induction edits with
  | refl s => exact .refl (c :: s)
  | step edit _ inductionHypothesis => exact .step (edit.cons c) inductionHypothesis

/-- Edits can be made in the mirrored list. -/
theorem reverse (edits : EditedIn n s t) : EditedIn n s.reverse t.reverse := by
  induction edits with
  | refl s => exact .refl s.reverse
  | step edit _ inductionHypothesis => exact .step edit.reverse inductionHypothesis

/-- Mirrored lists need as many edits. -/
theorem reverse_iff : EditedIn n s.reverse t.reverse ↔ EditedIn n s t :=
  ⟨fun edits => by simpa using edits.reverse, reverse⟩

/-- Without an edit the lists are the same. -/
theorem zero_iff : EditedIn 0 s t ↔ s = t := by
  constructor
  · intro edits
    cases edits
    rfl
  · rintro rfl
    exact .refl s

/-- Inserting all elements of a list. -/
theorem insertAll (t : List α) : EditedIn t.length [] t := by
  induction t with
  | nil => exact .refl []
  | cons c t inductionHypothesis =>
      exact inductionHypothesis.trans (.one (.insertion [] c t))

end EditedIn

/-! ## The least number of edits -/

/-- No fewer edits turn one list into the other. -/
def LeastEdits (s t : List α) (n : Nat) : Prop := IsLeast { k | EditedIn k s t } n

namespace LeastEdits

variable {r : List α} {m k : Nat}

/-- There is one least number. -/
theorem unique (first : LeastEdits s t n) (second : LeastEdits s t m) : n = m :=
  IsLeast.unique first second

/-- It is the same in both directions. -/
theorem symm (least : LeastEdits s t n) : LeastEdits t s n :=
  ⟨least.1.symm, fun _ edits => least.2 (EditedIn.symm edits)⟩

/-- It is the same for the mirrored lists. -/
theorem reverse (least : LeastEdits s t n) : LeastEdits s.reverse t.reverse n :=
  ⟨least.1.reverse, fun _ edits => least.2 (EditedIn.reverse_iff.mp edits)⟩

/-- It is zero exactly for equal lists. -/
theorem eq_zero_iff (least : LeastEdits s t n) : n = 0 ↔ s = t := by
  constructor
  · rintro rfl
    exact EditedIn.zero_iff.mp least.1
  · rintro rfl
    exact Nat.le_zero.mp (least.2 (EditedIn.refl s))

/-- A way through a third list is not shorter. -/
theorem triangle (whole : LeastEdits s r n) (first : LeastEdits s t m)
    (second : LeastEdits t r k) : n ≤ m + k :=
  whole.2 (first.1.trans second.1)

end LeastEdits

/-! ## The distance -/

section Distance

variable [DecidableEq α]

/-- What it costs to put one element in the place of another. -/
def substitutionCost (c d : α) : Nat := if c = d then 0 else 1

/-- It is at most one edit. -/
theorem substitutionCost_le (c d : α) : substitutionCost c d ≤ 1 := by
  rw [substitutionCost]
  split <;> omega

/-- The edit distance along both lists. -/
def editDistance : List α → List α → Nat
  | [], t => t.length
  | s, [] => s.length
  | c :: s, d :: t =>
      min (editDistance s t + substitutionCost c d)
        (min (editDistance s (d :: t) + 1) (editDistance (c :: s) t + 1))
termination_by s t => s.length + t.length

/-- From nothing everything is inserted. -/
theorem editDistance_nil_left (t : List α) : editDistance [] t = t.length := by
  rw [editDistance]

/-- To nothing everything is deleted. -/
theorem editDistance_nil_right (s : List α) : editDistance s [] = s.length := by
  cases s <;> simp [editDistance]

/-- The first elements are put in place of each other, or one of them is deleted or inserted. -/
theorem editDistance_cons (c d : α) (s t : List α) :
    editDistance (c :: s) (d :: t) = min (editDistance s t + substitutionCost c d)
      (min (editDistance s (d :: t) + 1) (editDistance (c :: s) t + 1)) := by
  rw [editDistance]

/-- As many edits as the distance do. -/
theorem editedIn_editDistance (s t : List α) : EditedIn (editDistance s t) s t := by
  induction s generalizing t with
  | nil =>
      rw [editDistance_nil_left]
      exact .insertAll t
  | cons c s shorter =>
      induction t with
      | nil =>
          rw [editDistance_nil_right]
          exact (EditedIn.insertAll (c :: s)).symm
      | cons d t inductionHypothesis =>
          rw [editDistance_cons]
          rcases min_choice (editDistance s t + substitutionCost c d)
            (min (editDistance s (d :: t) + 1) (editDistance (c :: s) t + 1)) with same | same
          · rw [same, substitutionCost]
            split
            · rename_i equal
              exact equal ▸ (shorter t).cons c
            · exact ((shorter t).cons c).trans (.one (.substitution [] c d t))
          · rw [same]
            rcases min_choice (editDistance s (d :: t) + 1) (editDistance (c :: s) t + 1)
              with same | same
            · rw [same]
              exact .step (.deletion [] c s) (shorter (d :: t))
            · rw [same]
              exact inductionHypothesis.trans (.one (.insertion [] d t))

/-- A list is at most one edit farther than another from every list. -/
def Near (s t : List α) : Prop := ∀ r, editDistance s r ≤ editDistance t r + 1

/-- Deleting the first element. -/
theorem near_deletion (c : α) (s : List α) : Near (c :: s) s := by
  intro r
  cases r with
  | nil => simp [editDistance_nil_right]
  | cons d r =>
      rw [editDistance_cons]
      omega

/-- One more first element in the target. -/
theorem editDistance_insertion (s : List α) (d : α) (r : List α) :
    editDistance s (d :: r) ≤ editDistance s r + 1 := by
  cases s with
  | nil => simp [editDistance_nil_left]
  | cons c s =>
      rw [editDistance_cons]
      omega

/-- Inserting a first element. -/
theorem near_insertion (c : α) (s : List α) : Near s (c :: s) := by
  intro r
  induction r with
  | nil =>
      simp only [editDistance_nil_right, List.length_cons]
      omega
  | cons d r inductionHypothesis =>
      have more := editDistance_insertion s d r
      rw [editDistance_cons]
      omega

/-- Substituting the first element. -/
theorem near_substitution (c d : α) (s : List α) : Near (c :: s) (d :: s) := by
  intro r
  induction r with
  | nil => simp [editDistance_nil_right]
  | cons e r inductionHypothesis =>
      have cost := substitutionCost_le c e
      rw [editDistance_cons, editDistance_cons]
      omega

/-- Behind the same first element. -/
theorem Near.cons (near : Near s t) (c : α) : Near (c :: s) (c :: t) := by
  intro r
  induction r with
  | nil =>
      have lengths := near []
      simp only [editDistance_nil_right, List.length_cons] at lengths ⊢
      omega
  | cons d r inductionHypothesis =>
      have first := near r
      have second := near (d :: r)
      rw [editDistance_cons, editDistance_cons]
      omega

/-- Behind the same elements. -/
theorem Near.append (near : Near s t) (front : List α) : Near (front ++ s) (front ++ t) := by
  induction front with
  | nil => exact near
  | cons c front inductionHypothesis => exact inductionHypothesis.cons c

/-- One edit changes no distance by more than one. -/
theorem OneEdit.near (edit : OneEdit s t) : Near s t := by
  cases edit with
  | insertion front c back => exact (near_insertion c back).append front
  | deletion front c back => exact (near_deletion c back).append front
  | substitution front c d back => exact (near_substitution c d back).append front

/-- No list is at a distance from itself. -/
theorem editDistance_self (s : List α) : editDistance s s = 0 := by
  induction s with
  | nil => rw [editDistance_nil_left, List.length_nil]
  | cons c s inductionHypothesis =>
      rw [editDistance_cons, inductionHypothesis, substitutionCost, if_pos rfl]
      omega

/-- Fewer edits than the distance do not do. -/
theorem editDistance_le (edits : EditedIn n s t) : editDistance s t ≤ n := by
  induction edits with
  | refl s => rw [editDistance_self]
  | step edit _ inductionHypothesis =>
      have near := edit.near
      exact (near _).trans (Nat.succ_le_succ inductionHypothesis)

/-- The distance is the least number of edits. -/
theorem leastEdits_editDistance (s t : List α) : LeastEdits s t (editDistance s t) :=
  ⟨editedIn_editDistance s t, fun _ => editDistance_le⟩

/-- No more edits are needed than the longer list has elements. -/
theorem editDistance_le_length (s t : List α) :
    editDistance s t ≤ max s.length t.length := by
  induction s generalizing t with
  | nil => simp [editDistance_nil_left]
  | cons c s inductionHypothesis =>
      cases t with
      | nil => simp [editDistance_nil_right]
      | cons d t =>
          have rest := inductionHypothesis t
          have cost := substitutionCost_le c d
          rw [editDistance_cons, List.length_cons, List.length_cons]
          omega

end Distance

end MergeBot.Foundation
