import Mathlib.Data.List.Basic

/-!
# Lists that differ in blanks

Two lists are given side by side as marks: an element of both, or a blank that only one of them
has. They are the same when between any two other elements one has as many additional blanks as
the other: `written_eq_wanted_iff`.
-/

namespace MergeBot.Foundation

universe u

/-- An element of two lists, or a blank of one of them. -/
inductive Mark (α : Type u)
  | both (element : α)
  | added
  | dropped
deriving DecidableEq, Repr

variable {α : Type u} (blank : α)

/-- The list with the added blanks. -/
def written : List (Mark α) → List α
  | [] => []
  | .both element :: marks => element :: written marks
  | .added :: marks => blank :: written marks
  | .dropped :: marks => written marks

/-- The list with the dropped blanks. -/
def wanted : List (Mark α) → List α
  | [] => []
  | .both element :: marks => element :: wanted marks
  | .added :: marks => wanted marks
  | .dropped :: marks => blank :: wanted marks

@[simp]
theorem written_append (first second : List (Mark α)) :
    written blank (first ++ second) = written blank first ++ written blank second := by
  fun_induction written blank first <;> simp_all [written]

@[simp]
theorem wanted_append (first second : List (Mark α)) :
    wanted blank (first ++ second) = wanted blank first ++ wanted blank second := by
  fun_induction wanted blank first <;> simp_all [wanted]

@[simp]
theorem written_both (list : List α) : written blank (list.map .both) = list := by
  induction list with
  | nil => rfl
  | cons element list inductionHypothesis => rw [List.map_cons, written, inductionHypothesis]

@[simp]
theorem wanted_both (list : List α) : wanted blank (list.map .both) = list := by
  induction list with
  | nil => rfl
  | cons element list inductionHypothesis => rw [List.map_cons, wanted, inductionHypothesis]

variable [DecidableEq α]

/-- As many blanks are added as dropped, in front of every other element and at the end;
`balance` have been added more before. -/
def Balanced : Int → List (Mark α) → Prop
  | balance, [] => balance = 0
  | balance, .both element :: marks =>
      if element = blank then Balanced balance marks else balance = 0 ∧ Balanced 0 marks
  | balance, .added :: marks => Balanced (balance + 1) marks
  | balance, .dropped :: marks => Balanced (balance - 1) marks

instance Balanced.decidable : (balance : Int) → (marks : List (Mark α)) →
    Decidable (Balanced blank balance marks)
  | balance, [] => inferInstanceAs (Decidable (balance = 0))
  | balance, .both element :: marks =>
      have := Balanced.decidable balance marks
      have := Balanced.decidable 0 marks
      inferInstanceAs (Decidable (if element = blank then _ else _))
  | balance, .added :: marks => Balanced.decidable (balance + 1) marks
  | balance, .dropped :: marks => Balanced.decidable (balance - 1) marks

/-- With the balance made up by blanks in front, the lists are the same when it comes out even. -/
theorem replicate_written_eq_iff (balance : Int) (marks : List (Mark α)) :
    List.replicate balance.toNat blank ++ written blank marks =
        List.replicate (-balance).toNat blank ++ wanted blank marks ↔
      Balanced blank balance marks := by
  induction marks generalizing balance with
  | nil =>
      simp only [written, wanted, List.append_nil, List.replicate_inj, or_true, and_true, Balanced]
      omega
  | cons mark marks inductionHypothesis =>
      cases mark with
      | both element =>
          rw [written, wanted, Balanced]
          by_cases isBlank : element = blank
          · rw [if_pos isBlank, isBlank, ← inductionHypothesis balance,
              List.append_cons, ← List.replicate_succ', List.replicate_succ,
              List.append_cons (List.replicate (-balance).toNat blank), ← List.replicate_succ',
              List.replicate_succ, List.cons_append, List.cons_append, List.cons_inj_right]
          · rw [if_neg isBlank]
            rcases Int.lt_trichotomy balance 0 with negative | rfl | positive
            · obtain ⟨count, more⟩ : ∃ count, (-balance).toNat = count + 1 :=
                ⟨(-balance).toNat - 1, by omega⟩
              have none : balance.toNat = 0 := by omega
              refine iff_of_false (fun same => ?_) fun both => by omega
              rw [none, more, List.replicate_succ] at same
              simp [isBlank] at same
            · have even := inductionHypothesis 0
              simp only [Int.toNat_zero, Int.neg_zero, List.replicate_zero,
                List.nil_append] at even
              simp [even]
            · obtain ⟨count, more⟩ : ∃ count, balance.toNat = count + 1 :=
                ⟨balance.toNat - 1, by omega⟩
              have none : (-balance).toNat = 0 := by omega
              refine iff_of_false (fun same => ?_) fun both => by omega
              rw [none, more, List.replicate_succ] at same
              simp [Ne.symm isBlank] at same
      | added =>
          rw [written, wanted, Balanced, ← inductionHypothesis]
          by_cases negative : balance < 0
          · have none : balance.toNat = 0 := by omega
            have noneNext : (balance + 1).toNat = 0 := by omega
            have fewer : (-balance).toNat = (-(balance + 1)).toNat + 1 := by omega
            rw [none, noneNext, fewer, List.replicate_succ]
            simp
          · have more : (balance + 1).toNat = balance.toNat + 1 := by omega
            have none : (-balance).toNat = 0 := by omega
            have noneNext : (-(balance + 1)).toNat = 0 := by omega
            rw [more, none, noneNext, List.append_cons, ← List.replicate_succ']
      | dropped =>
          rw [written, wanted, Balanced, ← inductionHypothesis]
          by_cases positive : 0 < balance
          · have none : (-balance).toNat = 0 := by omega
            have noneNext : (-(balance - 1)).toNat = 0 := by omega
            have fewer : balance.toNat = (balance - 1).toNat + 1 := by omega
            rw [none, noneNext, fewer, List.replicate_succ]
            simp
          · have more : (-(balance - 1)).toNat = (-balance).toNat + 1 := by omega
            have none : balance.toNat = 0 := by omega
            have noneNext : (balance - 1).toNat = 0 := by omega
            rw [more, none, noneNext, List.append_cons (List.replicate (-balance).toNat blank),
              ← List.replicate_succ']

variable {blank}

/-- Two lists are the same if and only if their additional blanks balance. -/
theorem written_eq_wanted_iff {marks : List (Mark α)} :
    written blank marks = wanted blank marks ↔ Balanced blank 0 marks := by
  have even := replicate_written_eq_iff blank 0 marks
  simpa using even

end MergeBot.Foundation
